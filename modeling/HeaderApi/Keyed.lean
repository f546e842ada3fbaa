/-
# Insertion-ordered tables

A table from names to values that keeps its keys in the order of their first insertion.  A
second insertion under a key replaces the value and keeps the place.
-/

namespace HeaderApi

/-- Name and value pairs in order of first insertion. -/
abbrev Keyed (α : Type _) := List (String × α)

namespace Keyed

variable {α β : Type _}

/-- The value under a key. -/
def find? : Keyed α → String → Option α
  | [], _ => none
  | (k, v) :: rest, key => if k = key then some v else find? rest key

/-- Whether a key is present. -/
def contains (table : Keyed α) (key : String) : Bool := (find? table key).isSome

/-- The keys in order. -/
def keys (table : Keyed α) : List String := table.map Prod.fst

/-- The values in order. -/
def values (table : Keyed α) : List α := table.map Prod.snd

/-- Puts a value under a key, in place when the key is present and at the end otherwise. -/
def insert : Keyed α → String → α → Keyed α
  | [], key, value => [(key, value)]
  | (k, v) :: rest, key, value =>
    if k = key then (k, value) :: rest else (k, v) :: insert rest key value

/-- Puts a value under a key unless the key is present. -/
def insertNew (table : Keyed α) (key : String) (value : α) : Keyed α :=
  if contains table key then table else insert table key value

/-- Puts all pairs of the second table into the first. -/
def insertAll (table pairs : Keyed α) : Keyed α :=
  pairs.foldl (fun t pair => insert t pair.1 pair.2) table

/-- The table of a list of pairs: the last value of each key at its first place. -/
def ofPairs (pairs : List (String × α)) : Keyed α := insertAll [] pairs

@[simp] theorem find?_nil (key : String) : find? ([] : Keyed α) key = none := rfl

/-- Looking up after an insertion. -/
theorem find?_insert (table : Keyed α) (key other : String) (value : α) :
    find? (insert table key value) other =
      if key = other then some value else find? table other := by
  induction table with
  | nil => simp [insert, find?]
  | cons pair rest ih =>
    obtain ⟨k, v⟩ := pair
    by_cases hk : k = key
    · subst hk
      by_cases h : k = other <;> simp [insert, find?, h]
    · by_cases h : k = other
      · subst h
        simp [insert, find?, hk, Ne.symm hk]
      · simpa [insert, find?, hk, h] using ih

/-- The keys after an insertion. -/
theorem keys_insert (table : Keyed α) (key : String) (value : α) :
    keys (insert table key value) =
      if key ∈ keys table then keys table else keys table ++ [key] := by
  induction table with
  | nil => simp [insert, keys]
  | cons pair rest ih =>
    obtain ⟨k, v⟩ := pair
    by_cases hk : k = key
    · subst hk
      simp [insert, keys]
    · have hcons :
          keys (insert ((k, v) :: rest) key value) = k :: keys (insert rest key value) := by
        simp [insert, hk, keys]
      rw [hcons, ih]
      by_cases hm : key ∈ keys rest <;> simp_all [keys, Ne.symm hk]

end Keyed

end HeaderApi
