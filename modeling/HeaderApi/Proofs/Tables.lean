import HeaderApi.Keyed
import Mathlib.Data.List.Induction

/-!
# Tables with distinct keys

What insertion does to a table in which no key stands twice.
-/

namespace HeaderApi.Keyed

variable {α : Type _} {table : Keyed α} {key : String} {value : α}

theorem keys_cons (pair : String × α) (table : Keyed α) :
    keys (pair :: table) = pair.1 :: keys table := rfl

theorem keys_append (first second : Keyed α) : keys (first ++ second) = keys first ++ keys second :=
  List.map_append

theorem mem_keys {pair : String × α} (h : pair ∈ table) : pair.1 ∈ keys table :=
  List.mem_map_of_mem h

/-- A key is found when it is one of the table. -/
theorem find?_isSome_iff : (find? table key).isSome = true ↔ key ∈ keys table := by
  induction table with
  | nil => simp [keys]
  | cons pair table ih =>
    obtain ⟨k, v⟩ := pair
    rw [find?, keys_cons, List.mem_cons]
    split
    · rename_i h
      simp [h]
    · rename_i h
      simp [ih, Ne.symm h]

theorem contains_iff : contains table key = true ↔ key ∈ keys table := find?_isSome_iff

theorem contains_eq_false_iff : contains table key = false ↔ key ∉ keys table := by
  rw [← contains_iff, Bool.not_eq_true]

theorem contains_append_singleton {other : String} (h : other ≠ key) :
    contains (table ++ [(key, value)]) other = contains table other := by
  rw [Bool.eq_iff_iff, contains_iff, contains_iff, keys_append, List.mem_append]
  refine ⟨fun hmem => hmem.resolve_right fun hlast => ?_, Or.inl⟩
  exact h (List.mem_singleton.1 hlast)

/-- A new key is put at the end. -/
theorem insert_of_not_mem (h : key ∉ keys table) :
    insert table key value = table ++ [(key, value)] := by
  induction table with
  | nil => rfl
  | cons pair table ih =>
    obtain ⟨k, v⟩ := pair
    rw [keys_cons, List.mem_cons, not_or] at h
    rw [insert, if_neg (Ne.symm h.1), ih h.2, List.cons_append]

theorem not_mem_of_nodup_append {rest : Keyed α}
    (h : (keys (table ++ (key, value) :: rest)).Nodup) : key ∉ keys table := by
  rw [keys_append, List.nodup_append] at h
  intro hkey
  exact h.2.2 key hkey key List.mem_cons_self rfl

/-- One more text is kept unless it has come before. -/
theorem eraseDups_concat (texts : List String) (s : String) :
    (texts ++ [s]).eraseDups = if s ∈ texts then texts.eraseDups else texts.eraseDups ++ [s] := by
  rw [List.eraseDups_append, List.cons_removeAll, List.contains_eq_mem, List.nil_removeAll]
  by_cases hmem : s ∈ texts
  · rw [if_pos hmem, if_neg (by simpa using hmem), List.eraseDups_nil, List.append_nil]
  · rw [if_neg hmem, if_pos (by simpa using hmem), List.eraseDups_cons, List.filter_nil,
      List.eraseDups_nil]

/-- In a table without double keys each pair is an insertion behind those before it. -/
theorem append_cons_eq_insert {rest : Keyed α}
    (h : (keys (table ++ (key, value) :: rest)).Nodup) :
    table ++ (key, value) :: rest = insert table key value ++ rest := by
  rw [insert_of_not_mem (not_mem_of_nodup_append h), List.append_assoc, List.singleton_append]

/-- Putting a value where it stands already changes nothing. -/
theorem insert_of_find? (h : find? table key = some value) : insert table key value = table := by
  induction table with
  | nil => cases h
  | cons pair table ih =>
    obtain ⟨k, v⟩ := pair
    rw [find?] at h
    rw [insert]
    split
    · rename_i hk
      rw [if_pos hk] at h
      rw [Option.some.inj h]
    · rename_i hk
      rw [if_neg hk] at h
      rw [ih h]

/-- Inserting a value makes no key double. -/
theorem nodup_keys_insert (h : (keys table).Nodup) : (keys (insert table key value)).Nodup := by
  rw [keys_insert]
  split
  · exact h
  · rename_i hkey
    rw [List.nodup_append]
    refine ⟨h, List.pairwise_singleton _ key, fun a ha b hb => ?_⟩
    rw [List.mem_singleton.1 hb]
    rintro rfl
    exact hkey ha

/-- A pair of the table behind an insertion is the new one or one of those before. -/
theorem mem_insert {pair : String × α} (h : pair ∈ insert table key value) :
    pair = (key, value) ∨ pair ∈ table := by
  induction table with
  | nil => exact Or.inl (List.mem_singleton.1 h)
  | cons first table ih =>
    obtain ⟨k, v⟩ := first
    rw [insert] at h
    split at h
    · rename_i hk
      subst hk
      exact (List.mem_cons.1 h).imp id (List.mem_cons_of_mem _)
    · rcases List.mem_cons.1 h with rfl | h
      · exact Or.inr List.mem_cons_self
      · exact (ih h).imp id (List.mem_cons_of_mem _)

/-- The pairs after an insertion: the new one, and those under other keys. -/
theorem mem_insert_of_nodup (h : (keys table).Nodup) {pair : String × α}
    (hpair : pair ∈ insert table key value) :
    pair = (key, value) ∨ pair ∈ table ∧ pair.1 ≠ key := by
  induction table with
  | nil => exact Or.inl (List.mem_singleton.1 hpair)
  | cons first table ih =>
    obtain ⟨k, v⟩ := first
    obtain ⟨hk, htable⟩ := List.nodup_cons.1 h
    rw [insert] at hpair
    split at hpair
    · rename_i hkey
      subst hkey
      rcases List.mem_cons.1 hpair with rfl | hpair
      · exact Or.inl rfl
      · refine Or.inr ⟨List.mem_cons_of_mem _ hpair, ?_⟩
        intro heq
        have hmem := mem_keys hpair
        rw [heq] at hmem
        exact hk hmem
    · rename_i hkey
      rcases List.mem_cons.1 hpair with rfl | hpair
      · exact Or.inr ⟨List.mem_cons_self, hkey⟩
      · rcases ih htable hpair with heq | ⟨hmem, hne⟩
        · exact Or.inl heq
        · exact Or.inr ⟨List.mem_cons_of_mem _ hmem, hne⟩

/-- What is found under a key stands there in the table. -/
theorem mem_of_find? (h : find? table key = some value) : (key, value) ∈ table := by
  induction table with
  | nil => cases h
  | cons first table ih =>
    obtain ⟨k, v⟩ := first
    rw [find?] at h
    split at h
    · rename_i hk
      cases h
      rw [hk]
      exact List.mem_cons_self
    · exact List.mem_cons_of_mem _ (ih h)

/-- A pair of a table without double keys is found under its key. -/
theorem find?_of_mem (h : (keys table).Nodup) {pair : String × α} (hpair : pair ∈ table) :
    find? table pair.1 = some pair.2 := by
  induction table with
  | nil => cases hpair
  | cons first table ih =>
    obtain ⟨hfirst, htable⟩ := List.nodup_cons.1 h
    rcases List.mem_cons.1 hpair with rfl | hpair
    · exact if_pos rfl
    · rw [find?, if_neg, ih htable hpair]
      intro heq
      have hmem := mem_keys hpair
      rw [← heq] at hmem
      exact hfirst hmem

/-! ## Many insertions -/

theorem insertAll_cons (pair : String × α) (table pairs : Keyed α) :
    insertAll table (pair :: pairs) = insertAll (insert table pair.1 pair.2) pairs := rfl

/-- Looking up after insertions under different keys: what was inserted under the key, or else what
was there before. -/
theorem find?_insertAll_map {ι : Type _} (table : Keyed α) (key : ι → String) (value : ι → α)
    {items : List ι} (h : (items.map key).Nodup) (other : String) :
    find? (insertAll table (items.map fun i => (key i, value i))) other =
      ((items.find? fun i => key i = other).map value).or (find? table other) := by
  induction items generalizing table with
  | nil => rfl
  | cons i items ih =>
    obtain ⟨hnew, hrest⟩ := List.nodup_cons.1 h
    rw [List.map_cons, insertAll_cons, ih _ hrest, find?_insert]
    by_cases hkey : key i = other
    · have hnone : items.find? (fun i => key i = other) = none := by
        refine List.find?_eq_none.2 fun j hj => ?_
        rw [decide_eq_true_eq]
        intro hother
        have hmem : key j ∈ items.map key := List.mem_map_of_mem hj
        rw [hother, ← hkey] at hmem
        exact hnew hmem
      rw [hnone, if_pos hkey, List.find?_cons_of_pos (by simpa using hkey)]
      rfl
    · rw [if_neg hkey, List.find?_cons_of_neg (by simpa using hkey)]

/-- Tables that have the same under a key have the same there after the same insertions. -/
theorem find?_insertAll_congr {table table' : Keyed α} {key : String}
    (h : find? table' key = find? table key) (pairs : Keyed α) :
    find? (insertAll table' pairs) key = find? (insertAll table pairs) key := by
  induction pairs generalizing table table' with
  | nil => exact h
  | cons pair pairs ih =>
    rw [insertAll_cons, insertAll_cons]
    refine ih ?_
    rw [find?_insert, find?_insert, h]

theorem insertAll_concat (table pairs : Keyed α) (pair : String × α) :
    insertAll table (pairs ++ [pair]) = insert (insertAll table pairs) pair.1 pair.2 := by
  rw [insertAll, insertAll, List.foldl_append]
  rfl

/-- Pairs with other keys do not matter for a key. -/
theorem find?_insertAll_of_not_mem {pairs : Keyed α} (h : key ∉ keys pairs) (table : Keyed α) :
    find? (insertAll table pairs) key = find? table key := by
  induction pairs generalizing table with
  | nil => rfl
  | cons pair pairs ih =>
    rw [keys_cons, List.mem_cons, not_or] at h
    rw [insertAll_cons, ih h.2, find?_insert, if_neg (Ne.symm h.1)]

/-- The keys of a table of pairs, in the order in which they first come. -/
theorem keys_ofPairs (pairs : Keyed α) : keys (ofPairs pairs) = (keys pairs).eraseDups := by
  induction pairs using List.reverseRecOn with
  | nil => rfl
  | append_singleton pairs pair ih =>
    rw [ofPairs] at ih ⊢
    rw [insertAll_concat, keys_insert, ih, keys_append]
    show _ = (keys pairs ++ [pair.1]).eraseDups
    rw [eraseDups_concat]
    simp only [List.mem_eraseDups]

/-- The last pair of a key is the one that stands in the table. -/
theorem find?_ofPairs {before after : Keyed α} (h : key ∉ keys after) :
    find? (ofPairs (before ++ (key, value) :: after)) key = some value := by
  have hsplit : ofPairs (before ++ (key, value) :: after) =
      insertAll (insertAll [] (before ++ [(key, value)])) after := by
    rw [ofPairs, insertAll, insertAll, insertAll, ← List.foldl_append, List.append_assoc,
      List.singleton_append]
  rw [hsplit, find?_insertAll_of_not_mem h, insertAll_concat, find?_insert, if_pos rfl]

/-! ## Insertions of new keys -/

/-- Puts the pairs of the second table into the first in turn, apart from those whose key is
present. -/
def insertNewAll (table pairs : Keyed α) : Keyed α :=
  pairs.foldl (fun t pair => insertNew t pair.1 pair.2) table

theorem insertNewAll_cons (pair : String × α) (table pairs : Keyed α) :
    insertNewAll table (pair :: pairs) = insertNewAll (insertNew table pair.1 pair.2) pairs := rfl

theorem insertNewAll_concat (table pairs : Keyed α) (pair : String × α) :
    insertNewAll table (pairs ++ [pair]) = insertNew (insertNewAll table pairs) pair.1 pair.2 := by
  rw [insertNewAll, insertNewAll, List.foldl_append]
  rfl

theorem insertNew_of_mem (h : key ∈ keys table) : insertNew table key value = table :=
  if_pos (contains_iff.2 h)

theorem insertNew_of_not_mem (h : key ∉ keys table) :
    insertNew table key value = table ++ [(key, value)] := by
  rw [insertNew, if_neg (mt contains_iff.1 h), insert_of_not_mem h]

/-- A key is added to those of a table when it is new. -/
theorem keys_insertNew :
    keys (insertNew table key value) =
      if key ∈ keys table then keys table else keys table ++ [key] := by
  by_cases hkey : key ∈ keys table
  · rw [insertNew_of_mem hkey, if_pos hkey]
  · rw [insertNew_of_not_mem hkey, if_neg hkey, keys_append]
    rfl

/-- Under a key the value from before is found, or else the added one. -/
theorem find?_insertNew (table : Keyed α) (key other : String) (value : α) :
    find? (insertNew table key value) other =
      (find? table other).or (if key = other then some value else none) := by
  rw [insertNew]
  by_cases hother : key = other
  · subst hother
    rw [if_pos rfl]
    split
    · rename_i hmem
      obtain ⟨old, hold⟩ := Option.isSome_iff_exists.1 hmem
      rw [hold, Option.some_or]
    · rename_i hnew
      rw [contains, Bool.not_eq_true, Option.isSome_eq_false_iff, Option.isNone_iff_eq_none] at hnew
      rw [find?_insert, if_pos rfl, hnew, Option.none_or]
  · rw [if_neg hother, Option.or_none]
    split
    · rfl
    · rw [find?_insert, if_neg hother]

/-- The first pair of a key is the one that stands in the table. -/
theorem find?_insertNewAll (table pairs : Keyed α) (key : String) :
    find? (insertNewAll table pairs) key = (find? table key).or (find? pairs key) := by
  induction pairs generalizing table with
  | nil => exact Option.or_none.symm
  | cons pair pairs ih =>
    obtain ⟨k, v⟩ := pair
    rw [insertNewAll_cons, ih, find?_insertNew, Option.or_assoc, find?]
    split
    · rw [Option.some_or]
    · rw [Option.none_or]

/-- The keys come in the order in which they first come. -/
theorem keys_insertNewAll {texts : List String} (h : keys table = texts.eraseDups)
    (pairs : Keyed α) : keys (insertNewAll table pairs) = (texts ++ keys pairs).eraseDups := by
  induction pairs using List.reverseRecOn with
  | nil => exact h.trans (congrArg List.eraseDups (List.append_nil texts).symm)
  | append_singleton pairs pair ih =>
    rw [insertNewAll_concat, keys_insertNew, ih, keys_append, ← List.append_assoc]
    show _ = (texts ++ keys pairs ++ [pair.1]).eraseDups
    rw [eraseDups_concat]
    simp only [List.mem_eraseDups]

/-- Whether pairs are put into a table of their own before makes no difference. -/
theorem insertNewAll_insertNewAll (table pairs : Keyed α) :
    insertNewAll table (insertNewAll [] pairs) = insertNewAll table pairs := by
  induction pairs using List.reverseRecOn with
  | nil => rfl
  | append_singleton pairs pair ih =>
    rw [insertNewAll_concat, insertNewAll_concat]
    by_cases hkey : pair.1 ∈ keys (insertNewAll [] pairs)
    · have hlater : pair.1 ∈ keys (insertNewAll table pairs) := by
        rw [← find?_isSome_iff, find?_insertNewAll] at hkey ⊢
        rw [find?_nil, Option.none_or] at hkey
        rw [Option.isSome_or, hkey, Bool.or_true]
      rw [insertNew_of_mem hkey, insertNew_of_mem hlater, ih]
    · rw [insertNew_of_not_mem hkey, insertNewAll_concat, ih]

/-! ## Changing all values -/

/-- A table with every value changed by a function. -/
def mapValues {β : Type _} (f : α → β) (table : Keyed α) : Keyed β :=
  table.map fun pair => (pair.1, f pair.2)

/-- Changing all values changes the one that is found. -/
theorem find?_mapValues {β : Type _} (f : α → β) (table : Keyed α) (key : String) :
    find? (mapValues f table) key = (find? table key).map f := by
  induction table with
  | nil => rfl
  | cons pair table ih =>
    show (if pair.1 = key then some (f pair.2) else find? (mapValues f table) key) =
      (if pair.1 = key then some pair.2 else find? table key).map f
    rw [ih]
    split
    · rfl
    · rfl

/-- Values can be changed before or behind an insertion. -/
theorem mapValues_insert {β : Type _} (f : α → β) (table : Keyed α) (key : String) (value : α) :
    mapValues f (insert table key value) = insert (mapValues f table) key (f value) := by
  induction table with
  | nil => rfl
  | cons pair table ih =>
    show mapValues f (if pair.1 = key then (pair.1, value) :: table
        else pair :: insert table key value) =
      if pair.1 = key then (pair.1, f value) :: mapValues f table
      else (pair.1, f pair.2) :: insert (mapValues f table) key (f value)
    rw [← ih]
    split
    · rfl
    · rfl

end HeaderApi.Keyed
