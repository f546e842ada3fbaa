import HeaderApi.Amalgam.Order
import Mathlib.Data.List.Nodup

/-!
# Parts behind their dependencies

What one round of the ordering places, and what holds of the order of all rounds: no part is
followed by one of its dependencies, and parts of distinct names are all placed.
-/

namespace HeaderApi.Part

variable {placed : List String} {remaining ordered : List Part}

/-! ## One round -/

/-- The parts that a round places. -/
def ready (placed : List String) (remaining : List Part) : List Part :=
  sortByName (remaining.filter (isReady placed))

/-- The names that are placed after a round. -/
def placedAfter (placed : List String) (remaining : List Part) : List String :=
  (ready placed remaining).map Part.name ++ placed

/-- The parts that a round leaves. -/
def leftOver (placed : List String) (remaining : List Part) : List Part :=
  remaining.filter fun part => !(placedAfter placed remaining).contains part.name

theorem ready_perm (placed : List String) (remaining : List Part) :
    (ready placed remaining).Perm (remaining.filter (isReady placed)) :=
  List.mergeSort_perm _ _

theorem mem_ready {part : Part} :
    part ∈ ready placed remaining ↔ part ∈ remaining ∧ isReady placed part = true := by
  rw [(ready_perm placed remaining).mem_iff, List.mem_filter]

/-- What is left behind a round are the parts whose names are not placed. -/
theorem mem_leftOver {part : Part} :
    part ∈ leftOver placed remaining ↔
      part ∈ remaining ∧ part.name ∉ placedAfter placed remaining := by
  rw [leftOver, List.mem_filter, Bool.not_eq_true', List.contains_eq_mem, decide_eq_false_iff_not]

/-- What the rounds give: nothing when nothing is left, or a round that places some part and then
the later rounds. -/
theorem orderFrom_succ_cases {fuel : Nat}
    (h : orderFrom (fuel + 1) placed remaining = .ok ordered) :
    remaining = [] ∧ ordered = [] ∨
      ready placed remaining ≠ [] ∧
        ∃ later, ordered = ready placed remaining ++ later ∧
          orderFrom fuel (placedAfter placed remaining) (leftOver placed remaining) =
            .ok later := by
  rw [orderFrom] at h
  split at h
  · rename_i hnil
    cases h
    exact Or.inl ⟨hnil, rfl⟩
  · dsimp only at h
    split at h
    · cases h
    · rename_i hready
      change (orderFrom fuel (placedAfter placed remaining) (leftOver placed remaining)).map
        (ready placed remaining ++ ·) = .ok ordered at h
      cases hlater : orderFrom fuel (placedAfter placed remaining) (leftOver placed remaining) with
      | error e =>
        rw [hlater] at h
        cases h
      | ok later =>
        rw [hlater] at h
        cases h
        exact Or.inr ⟨hready, later, rfl, rfl⟩

/-! ## All rounds -/

/-- A part whose dependencies are placed does not wait for one that is not. -/
theorem not_mem_deps_of_isReady {a b : Part} (ha : isReady placed a = true)
    (hb : b.name ∉ placed) : b.name ∉ a.deps := by
  intro hdep
  have hplaced := List.all_eq_true.1 ha b.name hdep
  rw [List.contains_eq_mem, decide_eq_true_eq] at hplaced
  exact hb hplaced

/-- Only parts that are left are put in order. -/
theorem orderFrom_subset {fuel : Nat} (h : orderFrom fuel placed remaining = .ok ordered) :
    ∀ part ∈ ordered, part ∈ remaining := by
  induction fuel generalizing placed remaining ordered with
  | zero =>
    cases h
    exact List.forall_mem_nil _
  | succ fuel ih =>
    rcases orderFrom_succ_cases h with ⟨-, rfl⟩ | ⟨-, later, rfl, hlater⟩
    · exact List.forall_mem_nil _
    · intro part hpart
      rcases List.mem_append.1 hpart with hmem | hmem
      · exact (mem_ready.1 hmem).1
      · exact (mem_leftOver.1 (ih hlater part hmem)).1

/-- No part depends on itself or on a part behind it. -/
theorem orderFrom_pairwise {fuel : Nat} (hfresh : ∀ part ∈ remaining, part.name ∉ placed)
    (h : orderFrom fuel placed remaining = .ok ordered) :
    (∀ part ∈ ordered, part.name ∉ part.deps) ∧
      ordered.Pairwise fun a b => b.name ∉ a.deps := by
  induction fuel generalizing placed remaining ordered with
  | zero =>
    cases h
    exact ⟨List.forall_mem_nil _, List.Pairwise.nil⟩
  | succ fuel ih =>
    rcases orderFrom_succ_cases h with ⟨-, rfl⟩ | ⟨-, later, rfl, hlater⟩
    · exact ⟨List.forall_mem_nil _, List.Pairwise.nil⟩
    · have hsub := orderFrom_subset hlater
      obtain ⟨hself, hpairs⟩ := ih (fun part hpart => (mem_leftOver.1 hpart).2) hlater
      -- a part of this round waits for none that is in it or comes later
      have hround : ∀ a ∈ ready placed remaining, ∀ b ∈ remaining, b.name ∉ a.deps :=
        fun a ha b hb => not_mem_deps_of_isReady (mem_ready.1 ha).2 (hfresh b hb)
      refine ⟨fun part hpart => ?_, List.pairwise_append.2 ⟨?_, hpairs, ?_⟩⟩
      · rcases List.mem_append.1 hpart with hmem | hmem
        · exact hround part hmem part (mem_ready.1 hmem).1
        · exact hself part hmem
      · exact List.pairwise_of_forall_mem_list fun a ha b hb =>
          hround a ha b (mem_ready.1 hb).1
      · intro a ha b hb
        exact hround a ha b (mem_leftOver.1 (hsub b hb)).1

/-- Of parts with distinct names a round leaves those that are not ready. -/
theorem leftOver_eq (hnames : (remaining.map Part.name).Nodup)
    (hfresh : ∀ part ∈ remaining, part.name ∉ placed) :
    leftOver placed remaining = remaining.filter fun part => !isReady placed part := by
  refine List.filter_congr fun part hpart => ?_
  rw [Bool.not_inj_iff, Bool.eq_iff_iff, List.contains_eq_mem, decide_eq_true_eq, placedAfter,
    List.mem_append, or_iff_left (hfresh part hpart), List.mem_map]
  refine ⟨?_, fun hready => ⟨part, mem_ready.2 ⟨hpart, hready⟩, rfl⟩⟩
  rintro ⟨other, hother, hname⟩
  obtain ⟨hmem, hready⟩ := mem_ready.1 hother
  rw [← List.inj_on_of_nodup_map hnames hmem hpart hname]
  exact hready

/-- The rounds place all parts of distinct names. -/
theorem orderFrom_perm {fuel : Nat} (hfuel : remaining.length < fuel)
    (hnames : (remaining.map Part.name).Nodup)
    (hfresh : ∀ part ∈ remaining, part.name ∉ placed)
    (h : orderFrom fuel placed remaining = .ok ordered) : ordered.Perm remaining := by
  induction fuel generalizing placed remaining ordered with
  | zero => omega
  | succ fuel ih =>
    rcases orderFrom_succ_cases h with ⟨rfl, rfl⟩ | ⟨hready, later, rfl, hlater⟩
    · exact List.Perm.refl _
    · have hsplit : (ready placed remaining ++ leftOver placed remaining).Perm remaining := by
        rw [leftOver_eq hnames hfresh]
        exact ((ready_perm placed remaining).append_right _).trans
          (List.filter_append_perm (isReady placed) remaining)
      have hlength := hsplit.length_eq
      rw [List.length_append] at hlength
      have hpos := List.length_pos_of_ne_nil hready
      have hrest : later.Perm (leftOver placed remaining) :=
        ih (by omega) (hnames.sublist (List.filter_sublist.map _))
          (fun part hpart => (mem_leftOver.1 hpart).2) hlater
      exact (hrest.append_left _).trans hsplit

theorem order_perm (hnames : (remaining.map Part.name).Nodup) (h : order remaining = .ok ordered) :
    ordered.Perm remaining :=
  orderFrom_perm (Nat.lt_succ_self _) hnames (fun _ _ => List.not_mem_nil) h

/-- No part of an order depends on itself or on a part behind it. -/
theorem order_pairwise (h : order remaining = .ok ordered) :
    (∀ part ∈ ordered, part.name ∉ part.deps) ∧
      ordered.Pairwise fun a b => b.name ∉ a.deps :=
  orderFrom_pairwise (fun _ _ => List.not_mem_nil) h

/-! ## Dependencies through several parts -/

/-- A part of a list is a dependency of a part. -/
def DependsOn (parts : List Part) (f g : Part) : Prop := g ∈ parts ∧ g.name ∈ f.deps

/-- A part comes behind its dependencies. -/
theorem index_lt_of_dependsOn (h : order remaining = .ok ordered) {f g : Part}
    (hdep : DependsOn ordered f g) {i j : Nat} (hi : ordered[i]? = some g)
    (hj : ordered[j]? = some f) : i < j := by
  obtain ⟨hself, hpairs⟩ := order_pairwise h
  obtain ⟨hilt, rfl⟩ := List.getElem?_eq_some_iff.1 hi
  obtain ⟨hjlt, rfl⟩ := List.getElem?_eq_some_iff.1 hj
  rcases Nat.lt_trichotomy i j with hlt | rfl | hgt
  · exact hlt
  · exact absurd hdep.2 (hself _ (List.getElem_mem _))
  · exact absurd hdep.2 (List.pairwise_iff_getElem.1 hpairs j i hjlt hilt hgt)

/-- A part comes behind everything on which it depends through other parts of the order. -/
theorem index_lt_of_transGen (h : order remaining = .ok ordered) {f g : Part}
    (hdep : Relation.TransGen (DependsOn ordered) f g) {i j : Nat} (hi : ordered[i]? = some g)
    (hj : ordered[j]? = some f) : i < j := by
  induction hdep generalizing i with
  | single hdep => exact index_lt_of_dependsOn h hdep hi hj
  | tail hchain hdep ih =>
    -- the part in between stands somewhere in the order
    rename_i between last
    have hbetween : between ∈ ordered := by
      cases hchain with
      | single hdep => exact hdep.1
      | tail _ hdep => exact hdep.1
    obtain ⟨k, hk, rfl⟩ := List.getElem_of_mem hbetween
    have hmiddle := List.getElem?_eq_getElem hk
    exact Nat.lt_trans (index_lt_of_dependsOn h hdep hi hmiddle) (ih hmiddle)

end HeaderApi.Part
