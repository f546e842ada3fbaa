import Mathlib.Data.List.Flatten
import HeaderApi.Proofs.GroupingRuns

/-!
# Functions and their entries

Every function that is declared before the first end has an entry of its own under its name, in
the order of the declarations, unless something else has that name.  What stands behind the end of
a namespace is not read, and that end may be the one of a namespace within another.
-/

namespace HeaderApi

open Text

/-! ## Slots of functions -/

/-- The entries under a key. -/
def Entries.under (table : Entries) (key : String) : List Entry :=
  ((Keyed.find? table key).map Slot.toList).getD []

section Under

variable {table result : Entries} {entry : Entry} {slot : Slot} {key : String}

/-- A slot that is put into a table gives the entries of its key and of no other. -/
theorem Entries.under_insert (table : Entries) (key other : String) (slot : Slot) :
    Entries.under (Keyed.insert table key slot) other =
      if key = other then slot.toList else table.under other := by
  unfold Entries.under
  rw [Keyed.find?_insert]
  split
  · rfl
  · rfl

/-- A function comes behind the functions of its slot. -/
theorem Slot.add?_function (hslot : ∀ current ∈ slot.toList, current.kind = .function)
    (hentry : entry.kind = .function) :
    ∃ result, slot.add? entry = some result ∧ result.toList = slot.toList ++ [entry] := by
  cases slot with
  | single current =>
    have hcurrent := hslot current (List.mem_singleton_self current)
    refine ⟨.overloads current [entry], ?_, rfl⟩
    rw [Slot.add?, if_pos (by simp [hentry, hcurrent])]
  | overloads first more => exact ⟨.overloads first (more ++ [entry]), if_pos hentry, rfl⟩

/-- A function comes behind the functions of its name. -/
theorem Entries.add?_function (htable : ∀ current ∈ table.under entry.key, current.kind = .function)
    (hentry : entry.kind = .function) :
    ∃ result, table.add? entry = some result ∧
      result.under entry.key = table.under entry.key ++ [entry] := by
  unfold Entries.add?
  cases hfind : Keyed.find? table entry.key with
  | none =>
    refine ⟨_, rfl, ?_⟩
    rw [Entries.under_insert, if_pos rfl, Entries.under, hfind]
    rfl
  | some slot =>
    have hunder : table.under entry.key = slot.toList := by
      rw [Entries.under, hfind]
      rfl
    rw [hunder] at htable ⊢
    obtain ⟨result, hadd, htoList⟩ := Slot.add?_function htable hentry
    refine ⟨Keyed.insert table entry.key result, ?_, ?_⟩
    · show (slot.add? entry).map _ = _
      rw [hadd]
      rfl
    · rw [Entries.under_insert, if_pos rfl, htoList]

/-- An entry changes nothing under another key than its own. -/
theorem Entries.under_add? (h : table.add? entry = some result) (hkey : entry.key ≠ key) :
    result.under key = table.under key := by
  unfold Entries.add? at h
  split at h
  · cases h
    rw [Entries.under_insert, if_neg hkey]
  · obtain ⟨slot, -, rfl⟩ := Option.map_eq_some_iff.mp h
    rw [Entries.under_insert, if_neg hkey]

/-- Where there are functions only, all of them are kept in order. -/
theorem Entries.under_addAll {entries : List Entry}
    (htable : ∀ current ∈ table.under key, current.kind = .function)
    (hentries : ∀ entry ∈ entries, entry.key = key → entry.kind = .function) :
    (table.addAll entries).1.under key =
      table.under key ++ entries.filter fun entry => entry.key = key := by
  induction entries generalizing table with
  | nil => exact (List.append_nil _).symm
  | cons entry entries ih =>
    have hlater := fun other hother => hentries other (List.mem_cons_of_mem entry hother)
    by_cases hkey : entry.key = key
    · have hentry := hentries entry List.mem_cons_self hkey
      rw [← hkey] at htable
      obtain ⟨result, hadd, hunder⟩ := Entries.add?_function htable hentry
      -- The table made from this entry still has functions only under the key.
      have hresult : ∀ current ∈ result.under key, current.kind = .function := by
        rw [← hkey, hunder]
        intro current hcurrent
        obtain hold | hnew := List.mem_append.mp hcurrent
        · exact htable current hold
        · rw [List.mem_singleton.mp hnew]
          exact hentry
      rw [Entries.addAll, hadd, List.filter_cons_of_pos (by simpa using hkey)]
      show (result.addAll entries).1.under key = _
      rw [ih hresult hlater, ← hkey, hunder, List.append_assoc]
      rfl
    · rw [Entries.addAll, List.filter_cons_of_neg (by simpa using hkey)]
      -- An entry of another key, taken in or not, leaves what stands under the key.
      cases hadd : table.add? entry with
      | none => exact ih htable hlater
      | some result =>
        have hunder := Entries.under_add? hadd hkey
        show (result.addAll entries).1.under key = _
        rw [← hunder] at htable ⊢
        exact ih htable hlater

end Under

/-! ## Entries that are taken into a scope -/

mutual

/-- An entry that stands for another one stands for itself. -/
theorem Entry.hoisted_of_mem : (entry : Entry) →
    ∀ other ∈ entry.hoisted, other.hoisted = [other]
  | ⟨signature, none⟩, other, h => by
    rw [Entry.hoisted, List.mem_singleton] at h
    rw [h, Entry.hoisted]
  | ⟨signature, some members⟩, other, h => by
    rw [Entry.hoisted] at h
    split at h
    · exact hoistedMembers_of_mem members other h
    · rename_i hname
      rw [List.mem_singleton.mp h, Entry.hoisted, if_neg hname]

/-- What is hoisted of a slot stands for itself. -/
theorem Slot.hoisted_of_mem : (slot : Slot) → ∀ other ∈ slot.hoisted, other.hoisted = [other]
  | .single entry, other, h => by
    rw [Slot.hoisted] at h
    exact Entry.hoisted_of_mem entry other h
  | .overloads first more, other, h => by
    rw [Slot.hoisted] at h
    obtain hfirst | hmore := List.mem_append.mp h
    · exact Entry.hoisted_of_mem first other hfirst
    · exact hoistedList_of_mem more other hmore

/-- What is hoisted of entries stands for itself. -/
theorem hoistedList_of_mem : (entries : List Entry) →
    ∀ other ∈ hoistedList entries, other.hoisted = [other]
  | [], other, h => by
    rw [hoistedList] at h
    cases h
  | entry :: entries, other, h => by
    rw [hoistedList] at h
    obtain hentry | hentries := List.mem_append.mp h
    · exact Entry.hoisted_of_mem entry other hentry
    · exact hoistedList_of_mem entries other hentries

/-- What is hoisted of a table stands for itself. -/
theorem hoistedMembers_of_mem : (members : List (String × Slot)) →
    ∀ other ∈ hoistedMembers members, other.hoisted = [other]
  | [], other, h => by
    rw [hoistedMembers] at h
    cases h
  | (_, slot) :: members, other, h => by
    rw [hoistedMembers] at h
    obtain hslot | hmembers := List.mem_append.mp h
    · exact Slot.hoisted_of_mem slot other hslot
    · exact hoistedMembers_of_mem members other hmembers

end

namespace Header

/-- The key under which the entry of a declaration stands. -/
def keyOf (s : Signature) : String := if s.kind = .forward then s.name ++ "-forward" else s.name

/-- What tokens declare in their scope: what the tokens before the first end declare, and where
one of these is a record without a name, what its body declares. -/
inductive Declares : List Token → Signature → Prop
  | token {tokens : List Token} {token : Token} {s : Signature}
      (htoken : token ∈ Token.beforeEnd tokens) (hs : signature? token.statement = some s) :
      Declares tokens s
  | body {tokens inner : List Token} {token : Token} {head : RecordHead} {s : Signature}
      (htoken : token ∈ Token.beforeEnd tokens) (hrecord : token.statement = .record head)
      (hname : head.name = "")
      (hinner : (Token.stream { enumerators := head.kind = .enum } head.bodyBegin
        head.body).outcome = .ok inner)
      (hs : Declares inner s) : Declares tokens s

/-- An entry that stands for something the tokens declare. -/
def IsDeclared (tokens : List Token) (entry : Entry) : Prop :=
  ∃ s, Declares tokens s ∧ entry.key = keyOf s ∧ entry.kind = s.kind

section Declared

variable {options : ParseOptions} {members : String → RecordHead → Logged ParseError Entries}
  {b b' : Builder} {token : Token} {tokens : List Token} {built : List (Token × Entry)}
  {entry : Entry} {table : Entries}

/-- The members that the reader of bodies gives are declared in the body. -/
def ReadsDeclared (members : String → RecordHead → Logged ParseError Entries) : Prop :=
  ∀ name head, Ensures (fun table => ∃ inner,
    (Token.stream { enumerators := head.kind = .enum } head.bodyBegin head.body).outcome =
      .ok inner ∧ ∀ entry ∈ hoistedMembers table, IsDeclared inner entry) (members name head)

/-- A table that is read for a token is that of the members of its record. -/
theorem exists_of_bodyOf {name : String}
    (h : (bodyOf members name token).outcome = .ok (some table)) :
    ∃ head, token.statement = .record head ∧ (members name head).outcome = .ok table := by
  unfold bodyOf at h
  split at h
  · rename_i head hrecord
    refine ⟨head, hrecord, ?_⟩
    cases hmembers : members name head with
    | mk log outcome =>
      rw [hmembers] at h
      cases outcome with
      | error e => cases h
      | ok found =>
        cases h
        rfl
  · cases h

/-- The entries that stand for the entry of a declaration are declared. -/
theorem BuiltFrom.isDeclared (h : BuiltFrom members options token entry)
    (hmembers : ReadsDeclared members) (htoken : token ∈ Token.beforeEnd tokens) :
    ∀ other ∈ entry.hoisted, IsDeclared tokens other := by
  obtain ⟨s, doc, template, name, hs, hsignature, hbody⟩ := h
  obtain ⟨_, _, _, hcomplete⟩ := complete_eq options doc template token s
  rw [hcomplete] at hsignature
  have hkind : entry.kind = s.kind := by rw [hsignature]
  have hname : entry.name = s.name := by rw [hsignature]
  have hself : IsDeclared tokens entry := by
    refine ⟨s, .token htoken hs, ?_, hkind⟩
    rw [Entry.key, keyOf, hkind, hname]
  obtain ⟨signature, body⟩ := entry
  intro other hother
  -- Only the members of a record without a name stand for it; any other entry stands for itself.
  cases body with
  | none =>
    rw [Entry.hoisted, List.mem_singleton] at hother
    rw [hother]
    exact hself
  | some table =>
    rw [Entry.hoisted] at hother
    split at hother
    · rename_i hempty
      obtain ⟨head, hrecord, hread⟩ := exists_of_bodyOf hbody
      obtain ⟨inner, hinner, hdeclared⟩ := hmembers name head table hread
      obtain ⟨s', hs', hkeys⟩ := hdeclared other hother
      refine ⟨s', .body htoken hrecord ?_ hinner hs', hkeys⟩
      rw [hrecord] at hs
      cases hs
      exact hname.symm.trans hempty
    · rw [List.mem_singleton.mp hother]
      exact hself

/-- Everything that is hoisted of the built entries is declared by the tokens. -/
theorem Builder.Reads.isDeclared (h : Builder.Reads members b (Token.beforeEnd tokens) built b')
    (hmembers : ReadsDeclared members) :
    ∀ other ∈ built.flatMap (fun pair => pair.2.hoisted), IsDeclared tokens other := by
  intro other hother
  obtain ⟨⟨token, entry⟩, hpair, hentry⟩ := List.mem_flatMap.mp hother
  have htoken : token ∈ (Token.beforeEnd tokens).filter declares := by
    rw [← h.map_fst]
    exact List.mem_map_of_mem hpair
  exact (h.builtFrom hpair).isDeclared hmembers (List.mem_of_mem_filter htoken) other hentry

/-- At every depth, what stands for the members of a record is declared in its body. -/
theorem membersOf_readsDeclared (options : ParseOptions) (fuel : Nat) :
    ReadsDeclared (membersOf options fuel) := by
  refine membersOf_ensures options ?_ fuel
  intro members hmembers head tokens b last built htokens _ hempty hreads
  refine ⟨tokens, htokens, fun entry hentry => ?_⟩
  -- The table holds entries that have been taken into the scope already, so taking its members
  -- into the scope around it changes none of them.
  rw [hoistedMembers_eq, List.mem_flatMap] at hentry
  obtain ⟨other, hother, hentry⟩ := hentry
  have hbuilt : other ∈ built.flatMap fun pair => pair.2.hoisted := by
    rw [hreads.entries_eq, hempty] at hother
    simpa using (Entries.toList_addAll [] _).subset hother
  obtain ⟨pair, -, hpair⟩ := List.mem_flatMap.mp hbuilt
  rw [Entry.hoisted_of_mem pair.2 other hpair, List.mem_singleton] at hentry
  rw [hentry]
  exact hreads.isDeclared hmembers other hbuilt

/-! ## Functions of a name -/

/-- Whether a token declares a function of a name. -/
def declaresFunction (name : String) (token : Token) : Bool :=
  match token.statement with
  | .function head => head.name = name
  | _ => false

theorem exists_of_declaresFunction {name : String} (h : declaresFunction name token = true) :
    ∃ head, token.statement = .function head ∧ head.name = name := by
  unfold declaresFunction at h
  split at h
  · rename_i head hfunction
    exact ⟨head, hfunction, of_decide_eq_true h⟩
  · cases h

/-- A token that declares a function declares something. -/
theorem declares_of_declaresFunction {name : String} (h : declaresFunction name token = true) :
    declares token = true := by
  obtain ⟨head, hfunction, -⟩ := exists_of_declaresFunction h
  rw [declares, hfunction]
  rfl

/-- The entry of a function has no members, and it stands under the name of the function. -/
theorem BuiltFrom.function {name : String} (h : BuiltFrom members options token entry)
    (hfunction : declaresFunction name token = true) : entry.key = name ∧
      ∃ s doc template, signature? token.statement = some s ∧
        entry = ⟨complete options doc template token s, none⟩ := by
  obtain ⟨s, doc, template, _, hs, hsignature, hbody⟩ := h
  obtain ⟨head, hstatement, hname⟩ := exists_of_declaresFunction hfunction
  rw [bodyOf, hstatement] at hbody
  obtain ⟨signature, body⟩ := entry
  cases hbody
  dsimp only at hsignature
  subst hsignature
  refine ⟨?_, s, doc, template, hs, rfl⟩
  obtain ⟨_, _, _, hcomplete⟩ := complete_eq options doc template token s
  rw [hstatement] at hs
  cases hs
  rw [Entry.key, hcomplete, if_neg nofun]
  exact hname

/-- The entries of the functions of one name stand under the name in order. -/
theorem Builder.Reads.functions (h : Builder.Reads members b tokens built b') (name : String) :
    let functions := built.filter fun pair => declaresFunction name pair.1
    functions.map Prod.fst = tokens.filter (declaresFunction name) ∧
      (functions.map Prod.snd).Sublist
        ((built.flatMap fun pair => pair.2.hoisted).filter fun entry => entry.key = name) := by
  intro functions
  have hfunctions : ∀ pair ∈ functions, pair.2.hoisted = [pair.2] ∧ pair.2.key = name := by
    rintro ⟨token, entry⟩ hpair
    obtain ⟨hbuilt, hfunction⟩ := List.mem_filter.mp hpair
    obtain ⟨hkey, s, doc, template, -, rfl⟩ := (h.builtFrom hbuilt).function hfunction
    exact ⟨by rw [Entry.hoisted], hkey⟩
  constructor
  · calc (built.filter (declaresFunction name ∘ Prod.fst)).map Prod.fst
        = (built.map Prod.fst).filter (declaresFunction name) := List.filter_map.symm
      _ = (tokens.filter declares).filter (declaresFunction name) := by rw [h.map_fst]
      _ = tokens.filter (declaresFunction name) := by
        rw [List.filter_filter]
        apply List.filter_congr
        intro token _
        cases hfunction : declaresFunction name token with
        | true => exact declares_of_declaresFunction hfunction
        | false => rfl
  · -- A function hoists itself only, so its entries are a part of all that are hoisted.
    have hhoisted : functions.map Prod.snd = functions.flatMap fun pair => pair.2.hoisted := by
      rw [List.map_eq_flatMap]
      exact List.flatMap_congr fun pair hpair => (hfunctions pair hpair).1.symm
    have hkeys : (functions.map Prod.snd).filter (fun entry => entry.key = name) =
        functions.map Prod.snd := by
      rw [List.filter_eq_self]
      intro entry hentry
      obtain ⟨pair, hpair, rfl⟩ := List.mem_map.mp hentry
      exact decide_eq_true (hfunctions pair hpair).2
    rw [← hkeys, hhoisted]
    exact (List.filter_sublist.flatMap _).filter _

end Declared

end Header

/-- Where only functions have a name, each of them that is declared before the first end has an
entry of its own under it, in the order of the declarations. -/
theorem Header.ofTokens_functions {name key : String} {options : ParseOptions}
    {tokens : List Token} {header : Header}
    (h : (ofTokens name options tokens).outcome = .ok header)
    (honly : ∀ s, Declares tokens s → keyOf s = key → s.kind = .function) :
    ∃ built : List (Token × Entry),
      built.map Prod.fst = (Token.beforeEnd tokens).filter (declaresFunction key) ∧
      (built.map Prod.snd).Sublist (header.entries.under key) ∧
      ∀ token entry, (token, entry) ∈ built → ∃ s doc template,
        signature? token.statement = some s ∧
        entry = ⟨complete options doc template token s, none⟩ := by
  obtain ⟨built, last, hreads, -, -, hentries⟩ := ofTokens_ensures name options tokens header h
  have hunder : header.entries.under key =
      (built.flatMap fun pair => pair.2.hoisted).filter fun entry => entry.key = key := by
    rw [hentries, hreads.entries_eq]
    rw [Entries.under_addAll]
    · rfl
    · rintro _ ⟨⟩
    · intro entry hentry hkey
      obtain ⟨s, hs, hsame, hkind⟩ := hreads.isDeclared (membersOf_readsDeclared _ _) entry hentry
      rw [hkind]
      exact honly s hs (hsame.symm.trans hkey)
  obtain ⟨htokens, hsublist⟩ := hreads.functions key
  refine ⟨_, htokens, hunder ▸ hsublist, ?_⟩
  intro token entry hpair
  obtain ⟨hbuilt, hfunction⟩ := List.mem_filter.mp hpair
  exact ((hreads.builtFrom hbuilt).function hfunction).2

/-- The head of a function with a number as its result. -/
def numberHead (name parameters : String) : FunctionHead where
  name
  type := "int"
  parameters
  immutable := false
  static := false
  constexpr := false
  reference := 0

/-- Two overloads in a namespace. -/
def overloadTokens : List Token :=
  [⟨.namespaceBegin "A", 1, 2, 0⟩, ⟨.function (numberHead "f" "int a"), 2, 3, 0⟩,
    ⟨.function (numberHead "f" "float a"), 3, 4, 0⟩, ⟨.namespaceEnd, 4, 5, 0⟩, ⟨.eof, 5, 5, 0⟩]

/-- Two overloads are built from two tokens and stand in their order under one key. -/
theorem Header.ofTokens_functions_overloads :
    ∃ header, (Header.ofTokens "a.h" {} overloadTokens).outcome = .ok header ∧
      (∀ s, Header.Declares overloadTokens s → Header.keyOf s = "f" → s.kind = .function) ∧
      ∃ built : List (Token × Entry), built.map Prod.fst = (overloadTokens.drop 1).take 2 ∧
        (built.map Prod.snd).Sublist (header.entries.under "f") := by
  have honly : ∀ s, Header.Declares overloadTokens s → Header.keyOf s = "f" →
      s.kind = .function := by
    have hfunctions : ∀ token ∈ Token.beforeEnd overloadTokens,
        ((Header.signature? token.statement).all fun s => s.kind = .function) = true := by
      decide
    rintro s (⟨htoken, hs⟩ | ⟨htoken, hrecord, -, -, -⟩) -
    · have hkind := hfunctions _ htoken
      rw [hs] at hkind
      exact of_decide_eq_true hkind
    · have hkind := hfunctions _ htoken
      rw [hrecord] at hkind
      rename_i head
      cases hrecordKind : head.kind with
      | struct | union | enum => simp [Header.signature?, hrecordKind] at hkind
  have hok : (Header.ofTokens "a.h" {} overloadTokens).outcome.isOk = true := by decide +kernel
  cases h : (Header.ofTokens "a.h" {} overloadTokens).outcome with
  | error e =>
    rw [h] at hok
    cases hok
  | ok header =>
    obtain ⟨built, htokens, hsublist, -⟩ := Header.ofTokens_functions h honly
    exact ⟨header, rfl, honly, built, htokens, hsublist⟩

/-! ## Functions behind a namespace within another -/

/-- Where a token stands with regard to the first outermost namespace. -/
inductive NamespacePlace where
  | ahead
  /-- So many namespaces are open within it. -/
  | inside (depth : Nat)
  | behind

/-- Where the token behind a statement stands. -/
def NamespacePlace.next : NamespacePlace → Statement → NamespacePlace
  | .ahead, .namespaceBegin _ => .inside 0
  | .inside depth, .namespaceBegin _ => .inside (depth + 1)
  | .inside 0, .namespaceEnd => .behind
  | .inside (depth + 1), .namespaceEnd => .inside depth
  | place, _ => place

/-- Where the token behind some tokens stands. -/
def NamespacePlace.after (tokens : List Token) : NamespacePlace :=
  tokens.foldl (fun place token => place.next token.statement) .ahead

/-- A function in a namespace, behind another namespace in it. -/
def nestedLines : List Line :=
  ["namespace A \x7b", "namespace B \x7b", "int f();", "\x7d", "int g();", "\x7d"].map String.toList

/-- The tokens of these lines up to the second function. -/
def nestedStart : List Token :=
  [⟨.namespaceBegin "A", 1, 2, 0⟩, ⟨.namespaceBegin "B", 2, 3, 0⟩,
    ⟨.function (numberHead "f" ""), 3, 4, 0⟩, ⟨.namespaceEnd, 4, 5, 0⟩]

/-- The tokens of these lines. -/
def nestedTokens : List Token :=
  nestedStart ++ ⟨.function (numberHead "g" ""), 5, 6, 0⟩ ::
    [⟨.namespaceEnd, 6, 7, 0⟩, ⟨.eof, 7, 7, 0⟩]

/-- A function in the first namespace is lost when it stands behind a namespace in it. -/
theorem Header.not_forall_functions_kept :
    ¬ ∀ (name : String) (options : ParseOptions) (lines : List Line) (tokens : List Token)
        (header : Header), (Token.stream {} 1 lines).outcome = .ok tokens →
      (ofTokens name options tokens).outcome = .ok header →
      ∀ (before after : List Token) (token : Token) (head : FunctionHead) (depth : Nat),
        tokens = before ++ token :: after → NamespacePlace.after before = .inside depth →
        token.statement = .function head →
        (∀ other ∈ tokens, ∀ s, signature? other.statement = some s → s.name = head.name →
          s.kind = .function) →
        ∃ entry ∈ header.entries.under head.name, entry.kind = .function := by
  intro hall
  have htokens : (Token.stream {} 1 nestedLines).outcome = .ok nestedTokens := by rfl
  have hfunctions : ∀ other ∈ nestedTokens, (signature? other.statement).all (fun s =>
      s.kind = .function) = true := by decide
  have honly : ∀ other ∈ nestedTokens, ∀ s, signature? other.statement = some s →
      s.name = "g" → s.kind = .function := by
    intro other hother s hs _
    have hkind := hfunctions other hother
    rw [hs] at hkind
    exact of_decide_eq_true hkind
  have hlost : ((ofTokens "a.h" {} nestedTokens).outcome.toOption.map fun header =>
      (header.entries.under "g").isEmpty) = some true := by decide +kernel
  cases h : (ofTokens "a.h" {} nestedTokens).outcome with
  | error e =>
    rw [h] at hlost
    cases hlost
  | ok header =>
    rw [h] at hlost
    obtain ⟨entry, hentry, -⟩ := hall "a.h" {} nestedLines nestedTokens header htokens h
      nestedStart _ _ (numberHead "g" "") 0 rfl rfl rfl honly
    have hnil : header.entries.under "g" = [] := List.isEmpty_iff.mp (Option.some.inj hlost)
    rw [show (numberHead "g" "").name = "g" from rfl, hnil] at hentry
    cases hentry

end HeaderApi
