import HeaderApi.Proofs.GroupedEntries

/-!
# Where the entries of a header come from

Every entry of a header, at any depth, is the entry of a token: of the text itself, or of the body
of a record in it.
-/

namespace HeaderApi

open Text

namespace Header

/-- Some tokens are those of lines: of a text, or of the body of a record. -/
def AreRead (tokens : List Token) : Prop :=
  ∃ mode first lines, (Token.stream mode first lines).outcome = .ok tokens

/-- An entry is that of a token that has been read from lines. -/
def ComesFromToken (options : ParseOptions) (entry : Entry) : Prop :=
  ∃ tokens token, AreRead tokens ∧ token ∈ tokens ∧ EntryOf options token entry

variable {options : ParseOptions} {tokens : List Token} {token : Token} {table : Entries}
  {entry : Entry}

/-- A stand-in is the entry itself or one of its members. -/
theorem mem_standIns {other : Entry} (h : other ∈ entry.standIns) :
    other = entry ∨ ∃ members, entry.members = some members ∧ other ∈ Entries.toList members := by
  unfold Entry.standIns at h
  split at h
  · rename_i members hmembers
    split at h
    · exact .inr ⟨members, hmembers, h⟩
    · exact .inl (List.mem_singleton.mp h)
  · exact .inl (List.mem_singleton.mp h)

/-- What a table of a scope holds is one of the entries built there, or is held by one. -/
theorem exists_built_of_holds {built : List (Token × Entry)}
    (h : Groups (built.flatMap fun pair => pair.2.standIns) table) (hentry : table.Holds entry) :
    ∃ pair ∈ built, entry = pair.2 ∨
      ∃ members, pair.2.members = some members ∧ Entries.Holds members entry := by
  have hbuilt : ∀ other ∈ table.toList, ∃ pair ∈ built, other ∈ pair.2.standIns := by
    intro other hother
    obtain ⟨⟨key, slot⟩, hslot, hmem⟩ := List.mem_flatMap.mp hother
    have hkept := h.kept key slot hslot other hmem
    exact List.mem_flatMap.mp (List.mem_filter.mp hkept).1
  cases hentry with
  | here hmem =>
    obtain ⟨pair, hpair, hstand⟩ := hbuilt entry hmem
    refine ⟨pair, hpair, (mem_standIns hstand).imp_right ?_⟩
    rintro ⟨members, hmembers, hin⟩
    exact ⟨members, hmembers, .here hin⟩
  | deeper hrecord hinner hheld =>
    obtain ⟨pair, hpair, hstand⟩ := hbuilt _ hrecord
    refine ⟨pair, hpair, .inr ?_⟩
    obtain rfl | ⟨members, hmembers, hin⟩ := mem_standIns hstand
    · exact ⟨_, hinner, hheld⟩
    · exact ⟨members, hmembers, .deeper hin hinner hheld⟩

/-- What the table of a scope holds comes from the tokens of the scope, or from a record in it. -/
theorem TableOf.comesFromToken (h : TableOf options tokens table) :
    AreRead tokens → ∀ entry, table.Holds entry → ComesFromToken options entry := by
  -- For the entry of a token the induction says the same of what its members hold.
  refine @TableOf.rec options
    (fun tokens table _ => AreRead tokens → ∀ entry, table.Holds entry →
      ComesFromToken options entry)
    (fun _ record _ => ∀ members, record.members = some members →
      ∀ entry, Entries.Holds members entry → ComesFromToken options entry)
    ?scope ?plain ?record tokens table h
  case scope =>
    intro tokens table built hfst hbuilt hgroups ih htokens entry hentry
    obtain ⟨pair, hpair, rfl | ⟨members, hmembers, hheld⟩⟩ := exists_built_of_holds hgroups hentry
    · have hmem : pair.1 ∈ (Token.beforeEnd tokens).filter declares :=
        hfst ▸ List.mem_map_of_mem hpair
      have htoken : pair.1 ∈ tokens :=
        (List.takeWhile_prefix _).subset (List.mem_filter.mp hmem).1
      exact ⟨tokens, pair.1, htokens, htoken, hbuilt pair hpair⟩
    · exact ih pair hpair members hmembers entry hheld
  case plain =>
    intro token s doc template hs hplain members hmembers
    cases hmembers
  case record =>
    intro token s doc template head inner members hs hrecord hstream htable ih members' hmembers
    cases hmembers
    exact ih ⟨_, _, _, hstream⟩

/-- **Where entries come from.**  An entry of a header, at any depth, is that of a token. -/
theorem ofLines_comesFromToken {name : String} {lines : List Line} {header : Header}
    (h : (ofLines name options lines).outcome = .ok header) (hentry : header.entries.Holds entry) :
    ComesFromToken options entry := by
  have hread : Ensures (fun header => ∃ tokens, AreRead tokens ∧
      TableOf options tokens header.entries) (ofLines name options lines) := by
    unfold ofLines
    refine (mapError_ensures _).bind fun tokens htokens header hheader => ?_
    exact ⟨tokens, ⟨_, _, _, htokens⟩, ofTokens_tableOf hheader⟩
  obtain ⟨tokens, htokens, htable⟩ := hread header h
  exact htable.comesFromToken htokens entry hentry

end Header

end HeaderApi
