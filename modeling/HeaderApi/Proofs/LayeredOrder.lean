import HeaderApi.Proofs.PartOrder
import HeaderApi.Proofs.PrintedParts
import Mathlib.Data.Fintype.Card
import Mathlib.Data.Set.Finite.List

/-!
# Parts in layers

A part is as high as its longest chain of dependencies is long.  Each round places one layer: the
parts of the next height.  So the order of parts is that of their heights, and that of their names
within a height.  The parts that are never placed are those from which a path of dependencies
reaches a cycle or a name that no part has.
-/

namespace HeaderApi.Part

variable {parts other remaining : List Part} {placed : List String} {part a b : Part} {n : Nat}

/-! ## Heights -/

/-- The height of a part: the length of its longest chain of dependencies. -/
structure HasHeight (parts : List Part) (part : Part) (height : Nat) : Prop where
  reached : ∃ chain, List.IsChain (DependsOn parts) (part :: chain) ∧ chain.length = height
  longest : ∀ chain, List.IsChain (DependsOn parts) (part :: chain) → chain.length ≤ height

/-- A part from which some path of dependencies reaches a cycle or a name that no part has. -/
def IsStuck (parts : List Part) (part : Part) : Prop :=
  ∃ reached, Relation.ReflTransGen (DependsOn parts) part reached ∧
    (Relation.TransGen (DependsOn parts) reached reached ∨
      ∃ dep ∈ reached.deps, dep ∉ parts.map Part.name)

/-- Whether a part is placed within so many rounds: each of its dependencies is the name of a part
that is placed within one round less. -/
def PlacedWithin (parts : List Part) : Nat → Part → Prop
  | 0, _ => False
  | rounds + 1, part =>
    ∀ dep ∈ part.deps, ∃ g ∈ parts, g.name = dep ∧ PlacedWithin parts rounds g

/-- A part that is placed within some rounds is placed within one round more. -/
theorem PlacedWithin.succ (h : PlacedWithin parts n part) : PlacedWithin parts (n + 1) part := by
  induction n generalizing part with
  | zero => exact h.elim
  | succ n ih =>
    intro dep hdep
    obtain ⟨g, hg, hname, hplaced⟩ := h dep hdep
    exact ⟨g, hg, hname, ih hplaced⟩

theorem PlacedWithin.mono {m : Nat} (h : PlacedWithin parts m part) (hle : m ≤ n) :
    PlacedWithin parts n part := by
  induction hle with
  | refl => exact h
  | step _ ih => exact ih.succ

/-- The rounds do not depend on how the parts are listed. -/
theorem placedWithin_congr (h : ∀ g, g ∈ other ↔ g ∈ parts) :
    PlacedWithin other n part ↔ PlacedWithin parts n part := by
  induction n generalizing part with
  | zero => exact Iff.rfl
  | succ n ih => simp only [PlacedWithin, h, ih]

/-- A dependency is placed before the part that needs it. -/
theorem PlacedWithin.of_dependsOn (hnames : (parts.map Part.name).Nodup)
    (h : PlacedWithin parts (n + 1) a) (hdep : DependsOn parts a b) : PlacedWithin parts n b := by
  obtain ⟨g, hg, hname, hplaced⟩ := h b.name hdep.2
  rw [← List.inj_on_of_nodup_map hnames hg hdep.1 hname]
  exact hplaced

/-- What a placed part depends on, through others too, is placed a round before. -/
theorem PlacedWithin.of_transGen (hnames : (parts.map Part.name).Nodup)
    (h : PlacedWithin parts (n + 1) a) (hdeps : Relation.TransGen (DependsOn parts) a b) :
    PlacedWithin parts n b := by
  induction hdeps with
  | single hdep => exact h.of_dependsOn hnames hdep
  | tail _ hdep ih => exact ih.succ.of_dependsOn hnames hdep

/-- The chains of a part that is placed are shorter than the number of rounds. -/
theorem PlacedWithin.length_lt (hnames : (parts.map Part.name).Nodup)
    (h : PlacedWithin parts n part) {chain : List Part}
    (hchain : List.IsChain (DependsOn parts) (part :: chain)) : chain.length < n := by
  induction n generalizing part chain with
  | zero => exact h.elim
  | succ n ih =>
    cases chain with
    | nil => exact Nat.succ_pos n
    | cons g chain =>
      obtain ⟨hdep, hrest⟩ := List.isChain_cons_cons.1 hchain
      exact Nat.succ_lt_succ (ih (h.of_dependsOn hnames hdep) hrest)

/-- A part that is placed, but not within so many rounds, has a chain of that length. -/
theorem exists_chain (hplaced : ∃ m, PlacedWithin parts m part) (h : ¬PlacedWithin parts n part) :
    ∃ chain, List.IsChain (DependsOn parts) (part :: chain) ∧ chain.length = n := by
  induction n generalizing part with
  | zero => exact ⟨[], List.isChain_singleton part, rfl⟩
  | succ n ih =>
    obtain ⟨m, hm⟩ := hplaced
    cases m with
    | zero => exact hm.elim
    | succ m =>
      -- some dependency comes too late, and it is placed nevertheless
      simp only [PlacedWithin, not_forall, not_exists, not_and] at h
      obtain ⟨dep, hdep, hlate⟩ := h
      obtain ⟨g, hg, hname, hgplaced⟩ := hm dep hdep
      obtain ⟨chain, hchain, hlength⟩ := ih ⟨m, hgplaced⟩ (hlate g hg hname)
      refine ⟨g :: chain, List.isChain_cons_cons.2 ⟨⟨hg, ?_⟩, hchain⟩, congrArg Nat.succ hlength⟩
      rw [hname]
      exact hdep

/-- The parts of one round have the number of the round as their height. -/
theorem hasHeight_of_placedWithin (hnames : (parts.map Part.name).Nodup)
    (hbefore : ¬PlacedWithin parts n part) (h : PlacedWithin parts (n + 1) part) :
    HasHeight parts part n := by
  constructor
  · exact exists_chain ⟨n + 1, h⟩ hbefore
  · intro chain hchain
    exact Nat.le_of_lt_succ (h.length_lt hnames hchain)

/-- A part that is ever placed is placed in one round. -/
theorem exists_round (h : ∃ m, PlacedWithin parts m part) :
    ∃ n, ¬PlacedWithin parts n part ∧ PlacedWithin parts (n + 1) part := by
  obtain ⟨m, hm⟩ := h
  induction m with
  | zero => exact hm.elim
  | succ m ih =>
    by_cases hbefore : PlacedWithin parts m part
    · exact ih hbefore
    · exact ⟨m, hbefore, hm⟩

/-! ## Parts that are never placed -/

/-- What a part that is placed reaches is placed. -/
theorem exists_placedWithin_of_reflTransGen (hnames : (parts.map Part.name).Nodup)
    (h : ∃ n, PlacedWithin parts n a) (hdeps : Relation.ReflTransGen (DependsOn parts) a b) :
    ∃ n, PlacedWithin parts n b := by
  obtain ⟨n, hn⟩ := h
  rcases Relation.reflTransGen_iff_eq_or_transGen.1 hdeps with rfl | hdeps
  · exact ⟨n, hn⟩
  · exact ⟨n, hn.succ.of_transGen hnames hdeps⟩

/-- A part that is placed does not depend on itself. -/
theorem not_transGen_self_of_placedWithin (hnames : (parts.map Part.name).Nodup)
    (h : PlacedWithin parts n part) : ¬Relation.TransGen (DependsOn parts) part part := by
  intro hcycle
  induction n with
  | zero => exact h
  | succ n ih => exact ih (h.of_transGen hnames hcycle)

/-- A part that is placed is not stuck. -/
theorem not_isStuck_of_placedWithin (hnames : (parts.map Part.name).Nodup)
    (h : ∃ n, PlacedWithin parts n part) : ¬IsStuck parts part := by
  rintro ⟨reached, hdeps, hstuck⟩
  obtain ⟨n, hn⟩ := exists_placedWithin_of_reflTransGen hnames h hdeps
  rcases hstuck with hcycle | ⟨dep, hdep, hmissing⟩
  · exact not_transGen_self_of_placedWithin hnames hn hcycle
  · obtain ⟨g, hg, hname, -⟩ := hn.succ dep hdep
    exact hmissing (List.mem_map.2 ⟨g, hg, hname⟩)

/-- If each dependency is placed at some time, then all are placed at one time. -/
theorem exists_placedWithin_of_deps
    (h : ∀ dep ∈ part.deps, ∃ g ∈ parts, g.name = dep ∧ ∃ n, PlacedWithin parts n g) :
    ∃ n, PlacedWithin parts n part := by
  have hbound : ∀ deps : List String, (∀ dep ∈ deps, dep ∈ part.deps) →
      ∃ n, ∀ dep ∈ deps, ∃ g ∈ parts, g.name = dep ∧ PlacedWithin parts n g := by
    intro deps hdeps
    induction deps with
    | nil => exact ⟨0, List.forall_mem_nil _⟩
    | cons dep deps ih =>
      obtain ⟨hdep, hrest⟩ := List.forall_mem_cons.1 hdeps
      obtain ⟨g, hg, hname, m, hm⟩ := h dep hdep
      obtain ⟨n, hn⟩ := ih hrest
      refine ⟨max m n, List.forall_mem_cons.2 ⟨⟨g, hg, hname, ?_⟩, fun later hlater => ?_⟩⟩
      · exact hm.mono (le_max_left m n)
      · obtain ⟨g, hg, hname, hplaced⟩ := hn later hlater
        exact ⟨g, hg, hname, hplaced.mono (le_max_right m n)⟩
  obtain ⟨n, hn⟩ := hbound part.deps fun _ hdep => hdep
  exact ⟨n + 1, hn⟩

/-- A part that is not stuck is placed: among such parts there is no cycle, so dependencies can be
followed to their end. -/
theorem exists_placedWithin_of_not_isStuck (hpart : part ∈ parts) (h : ¬IsStuck parts part) :
    ∃ n, PlacedWithin parts n part := by
  let Free := { free : Part // free ∈ parts ∧ ¬IsStuck parts free }
  have : Finite Free := (List.finite_toSet parts).subset fun free hfree => hfree.1
  let Below : Free → Free → Prop := fun low high =>
    Relation.TransGen (DependsOn parts) high.1 low.1
  have : IsTrans Free Below := ⟨fun _ _ _ hab hbc => hbc.trans hab⟩
  have : Std.Irrefl Below := ⟨fun free hcycle => free.2.2 ⟨free.1, .refl, Or.inl hcycle⟩⟩
  have hwf : WellFounded Below := Finite.wellFounded_of_trans_of_irrefl Below
  suffices hall : ∀ free : Free, ∃ n, PlacedWithin parts n free.1 from hall ⟨part, hpart, h⟩
  intro free
  induction free using hwf.induction with
  | _ free ih =>
    refine exists_placedWithin_of_deps fun dep hdep => ?_
    have hnamed : dep ∈ parts.map Part.name := by
      by_contra hmissing
      exact free.2.2 ⟨free.1, .refl, Or.inr ⟨dep, hdep, hmissing⟩⟩
    obtain ⟨g, hg, rfl⟩ := List.mem_map.1 hnamed
    have hstep : DependsOn parts free.1 g := ⟨hg, hdep⟩
    have hfree : ¬IsStuck parts g := by
      rintro ⟨reached, hreached, hstuck⟩
      exact free.2.2 ⟨reached, hreached.head hstep, hstuck⟩
    exact ⟨g, hg, rfl, ih ⟨g, hg, hfree⟩ (.single hstep)⟩

/-- The stuck parts are those that are never placed. -/
theorem isStuck_iff (hnames : (parts.map Part.name).Nodup) (hpart : part ∈ parts) :
    IsStuck parts part ↔ ∀ n, ¬PlacedWithin parts n part := by
  constructor
  · intro hstuck n hn
    exact not_isStuck_of_placedWithin hnames ⟨n, hn⟩ hstuck
  · intro hnever
    by_contra hfree
    obtain ⟨n, hn⟩ := exists_placedWithin_of_not_isStuck hpart hfree
    exact hnever n hn

/-! ## Rounds -/

/-- A round puts the parts that are ready in front of those that the later rounds give. -/
theorem orderFrom_succ (fuel : Nat) (placed : List String) (remaining : List Part) :
    orderFrom (fuel + 1) placed remaining =
      if remaining = [] then .ok []
      else if ready placed remaining = [] then
        .error (.cycle (sortTexts (remaining.map Part.name)))
      else (orderFrom fuel (placedAfter placed remaining) (leftOver placed remaining)).map
        (ready placed remaining ++ ·) := by
  rw [orderFrom]
  rfl

/-- What is known after so many rounds: which names are placed, and which parts are left. -/
structure AtRound (parts : List Part) (n : Nat) (placed : List String) (remaining : List Part) :
    Prop where
  mem_placed : ∀ name, name ∈ placed ↔ ∃ g ∈ parts, g.name = name ∧ PlacedWithin parts n g
  mem_remaining : ∀ g, g ∈ remaining ↔ g ∈ parts ∧ ¬PlacedWithin parts n g
  sublist : remaining.Sublist parts

/-- Before the first round nothing is placed and all parts are left. -/
theorem atRound_zero (parts : List Part) : AtRound parts 0 [] parts where
  mem_placed _ := ⟨nofun, fun ⟨_, _, _, h⟩ => h.elim⟩
  mem_remaining _ := ⟨fun hg => ⟨hg, id⟩, And.left⟩
  sublist := List.Sublist.refl parts

theorem AtRound.isReady_iff (h : AtRound parts n placed remaining) :
    isReady placed part = true ↔ PlacedWithin parts (n + 1) part := by
  simp only [isReady, List.all_eq_true, List.contains_eq_mem, decide_eq_true_eq, h.mem_placed,
    PlacedWithin]

/-- **One round** places the parts that have all their dependencies in the layers before. -/
theorem AtRound.next (hnames : (parts.map Part.name).Nodup)
    (h : AtRound parts n placed remaining) :
    AtRound parts (n + 1) (placedAfter placed remaining) (leftOver placed remaining) := by
  have hplaced : ∀ name, name ∈ placedAfter placed remaining ↔
      ∃ g ∈ parts, g.name = name ∧ PlacedWithin parts (n + 1) g := by
    intro name
    rw [placedAfter, List.mem_append, List.mem_map, h.mem_placed]
    constructor
    · rintro (⟨g, hg, hname⟩ | ⟨g, hg, hname, hbefore⟩)
      · obtain ⟨hleft, hready⟩ := mem_ready.1 hg
        exact ⟨g, ((h.mem_remaining g).1 hleft).1, hname, h.isReady_iff.1 hready⟩
      · exact ⟨g, hg, hname, hbefore.succ⟩
    · rintro ⟨g, hg, hname, hnow⟩
      -- a part of the next layers is placed already, or it is ready now
      by_cases hbefore : PlacedWithin parts n g
      · exact Or.inr ⟨g, hg, hname, hbefore⟩
      · refine Or.inl ⟨g, mem_ready.2 ⟨?_, h.isReady_iff.2 hnow⟩, hname⟩
        exact (h.mem_remaining g).2 ⟨hg, hbefore⟩
  refine ⟨hplaced, fun g => ?_, List.filter_sublist.trans h.sublist⟩
  rw [mem_leftOver, h.mem_remaining, hplaced]
  constructor
  · rintro ⟨⟨hg, -⟩, hlater⟩
    exact ⟨hg, fun hnow => hlater ⟨g, hg, rfl, hnow⟩⟩
  · rintro ⟨hg, hlater⟩
    refine ⟨⟨hg, fun hbefore => hlater hbefore.succ⟩, ?_⟩
    rintro ⟨g', hg', hname, hnow⟩
    -- names tell parts apart
    rw [List.inj_on_of_nodup_map hnames hg' hg hname] at hnow
    exact hlater hnow

/-- One part comes in an earlier round than another, or in the same round with a smaller name. -/
def Precedes (parts : List Part) (a b : Part) : Prop :=
  (∃ n, PlacedWithin parts n a ∧ ¬PlacedWithin parts n b) ∨
    a.name < b.name ∧ ∀ n, PlacedWithin parts n a ↔ PlacedWithin parts n b

/-- Of two parts at most one comes before the other. -/
theorem Precedes.asymm (h : Precedes parts a b) : ¬Precedes parts b a := by
  rintro (⟨m, hb, ha⟩ | ⟨hname, hsame⟩)
  · rcases h with ⟨n, ha', hb'⟩ | ⟨-, hsame⟩
    · rcases Nat.le_total m n with hle | hle
      · exact hb' (hb.mono hle)
      · exact ha (ha'.mono hle)
    · exact ha ((hsame m).2 hb)
  · rcases h with ⟨n, ha', hb'⟩ | ⟨hname', -⟩
    · exact hb' ((hsame n).2 ha')
    · exact lt_asymm hname hname'

theorem precedes_congr (h : ∀ g, g ∈ other ↔ g ∈ parts) :
    Precedes other a b ↔ Precedes parts a b := by
  simp only [Precedes, placedWithin_congr h]

/-- The parts of one round are in the order of their names. -/
theorem pairwise_ready (hnames : (remaining.map Part.name).Nodup) (placed : List String) :
    (ready placed remaining).Pairwise fun a b => a.name < b.name := by
  have hsorted : (ready placed remaining).Pairwise fun a b => decide (a.name ≤ b.name) = true := by
    refine List.pairwise_mergeSort (fun a b c hab hbc => ?_) (fun a b => ?_) _
    · rw [decide_eq_true_eq] at *
      exact hab.trans hbc
    · rw [Bool.or_eq_true, decide_eq_true_eq, decide_eq_true_eq]
      exact le_total a.name b.name
  have hdistinct : (ready placed remaining).Pairwise fun a b => a.name ≠ b.name := by
    refine List.pairwise_map.1 (((ready_perm placed remaining).map Part.name).nodup_iff.2 ?_)
    exact hnames.sublist (List.filter_sublist.map _)
  refine (hsorted.and hdistinct).imp fun ⟨hle, hne⟩ => ?_
  exact lt_of_le_of_ne (of_decide_eq_true hle) hne

/-- What the rounds from some round on give: the parts that are left, in order, or those that are
never placed. -/
inductive Rounds (parts : List Part) (n : Nat) : Except AmalgamError (List Part) → Prop
  | placed {ordered : List Part} (hall : ∀ g ∈ parts, ∃ m, PlacedWithin parts m g)
      (hlate : ∀ g ∈ ordered, ¬PlacedWithin parts n g)
      (hpairs : ordered.Pairwise (Precedes parts)) : Rounds parts n (.ok ordered)
  | stuck {left : List Part} (hne : left ≠ []) (hsub : left.Sublist parts)
      (hmem : ∀ g, g ∈ left ↔ g ∈ parts ∧ ∀ m, ¬PlacedWithin parts m g) :
      Rounds parts n (.error (.cycle (sortTexts (left.map Part.name))))

/-- Where a round places nothing, no later one does. -/
theorem AtRound.never_placed (h : AtRound parts n placed remaining)
    (hready : ready placed remaining = []) (hpart : part ∈ parts)
    (hlate : ¬PlacedWithin parts n part) (m : Nat) : ¬PlacedWithin parts m part := by
  have hstop : ∀ g ∈ parts, PlacedWithin parts (n + 1) g → PlacedWithin parts n g := by
    intro g hg hnow
    by_contra hbefore
    have hmem := mem_ready.2 ⟨(h.mem_remaining g).2 ⟨hg, hbefore⟩, h.isReady_iff.2 hnow⟩
    rw [hready] at hmem
    cases hmem
  have hbound : ∀ m, ∀ g ∈ parts, PlacedWithin parts m g → PlacedWithin parts n g := by
    intro m
    induction m with
    | zero => exact fun _ _ hm => hm.elim
    | succ m ih =>
      intro g hg hm
      refine hstop g hg fun dep hdep => ?_
      obtain ⟨low, hlow, hname, hplaced⟩ := hm dep hdep
      exact ⟨low, hlow, hname, ih low hlow hplaced⟩
  exact fun hm => hlate (hbound m part hpart hm)

/-- The parts of one round in front of those of the later rounds. -/
theorem AtRound.pairwise_append (hnames : (parts.map Part.name).Nodup)
    (h : AtRound parts n placed remaining) {later : List Part}
    (hlate : ∀ g ∈ later, ¬PlacedWithin parts (n + 1) g)
    (hpairs : later.Pairwise (Precedes parts)) :
    (ready placed remaining ++ later).Pairwise (Precedes parts) := by
  have hround : ∀ g ∈ ready placed remaining,
      ¬PlacedWithin parts n g ∧ PlacedWithin parts (n + 1) g := by
    intro g hg
    obtain ⟨hleft, hready⟩ := mem_ready.1 hg
    exact ⟨((h.mem_remaining g).1 hleft).2, h.isReady_iff.1 hready⟩
  refine List.pairwise_append.2 ⟨?_, hpairs, fun a ha b hb => ?_⟩
  · have hbyName := pairwise_ready (hnames.sublist (h.sublist.map _)) placed
    refine hbyName.imp_of_mem fun {a b} ha hb hname => Or.inr ⟨hname, fun m => ?_⟩
    obtain ⟨ha, ha'⟩ := hround a ha
    obtain ⟨hb, hb'⟩ := hround b hb
    rcases Nat.lt_or_ge n m with hlt | hge
    · exact iff_of_true (ha'.mono hlt) (hb'.mono hlt)
    · exact iff_of_false (fun hm => ha (hm.mono hge)) (fun hm => hb (hm.mono hge))
  · exact Or.inl ⟨n + 1, (hround a ha).2, hlate b hb⟩

/-- A round that places some part leaves fewer. -/
theorem length_leftOver_lt (h : ready placed remaining ≠ []) :
    (leftOver placed remaining).length < remaining.length := by
  obtain ⟨g, hg⟩ := List.exists_mem_of_ne_nil _ h
  refine List.length_filter_lt_length_iff_exists.2 ⟨g, (mem_ready.1 hg).1, ?_⟩
  have hmem : g.name ∈ placedAfter placed remaining :=
    List.mem_append_left _ (List.mem_map_of_mem hg)
  simp [hmem]

/-- **All rounds**, from any of them on. -/
theorem AtRound.orderFrom (hnames : (parts.map Part.name).Nodup) {fuel : Nat}
    (h : AtRound parts n placed remaining) (hfuel : remaining.length < fuel) :
    Rounds parts n (orderFrom fuel placed remaining) := by
  induction fuel generalizing n placed remaining with
  | zero => omega
  | succ fuel ih =>
    rw [orderFrom_succ]
    split
    · rename_i hnil
      refine .placed (fun g hg => ⟨n, ?_⟩) (List.forall_mem_nil _) List.Pairwise.nil
      -- a part that is not placed yet would be left
      by_contra hlate
      have hmem := (h.mem_remaining g).2 ⟨hg, hlate⟩
      rw [hnil] at hmem
      cases hmem
    · rename_i hleft
      split
      · rename_i hready
        refine .stuck hleft h.sublist fun g => ?_
        rw [h.mem_remaining]
        constructor
        · exact fun ⟨hg, hlate⟩ => ⟨hg, h.never_placed hready hg hlate⟩
        · exact fun ⟨hg, hnever⟩ => ⟨hg, hnever n⟩
      · rename_i hready
        have hnext := h.next hnames
        have hshorter := length_leftOver_lt hready
        have hlater := ih hnext (by omega)
        -- the parts of this round come before those of the later rounds
        generalize orderFrom fuel (placedAfter placed remaining) (leftOver placed remaining) =
          result at hlater
        cases hlater with
        | stuck hne hsub hmem => exact .stuck hne hsub hmem
        | placed hall hlate hpairs =>
          refine .placed hall (fun g hg => ?_) (h.pairwise_append hnames hlate hpairs)
          rcases List.mem_append.1 hg with hg | hg
          · exact ((h.mem_remaining g).1 (mem_ready.1 hg).1).2
          · exact fun hn => hlate g hg hn.succ

theorem rounds_order (hnames : (parts.map Part.name).Nodup) : Rounds parts 0 (order parts) :=
  (atRound_zero parts).orderFrom hnames (Nat.lt_succ_self _)

/-! ## The order of all parts -/

/-- There is an order just when no part is stuck. -/
theorem exists_order_iff (hnames : (parts.map Part.name).Nodup) :
    (∃ ordered, order parts = .ok ordered) ↔ ∀ g ∈ parts, ¬IsStuck parts g := by
  have hrounds := rounds_order hnames
  generalize order parts = result at hrounds
  cases hrounds with
  | placed hall hlate hpairs =>
    refine iff_of_true ⟨_, rfl⟩ fun g hg => ?_
    exact not_isStuck_of_placedWithin hnames (hall g hg)
  | stuck hne hsub hmem =>
    refine iff_of_false nofun fun hfree => ?_
    obtain ⟨g, hg⟩ := List.exists_mem_of_ne_nil _ hne
    obtain ⟨hg, hnever⟩ := (hmem g).1 hg
    exact hfree g hg ((isStuck_iff hnames hg).2 hnever)

/-- Stuck parts are reported by their names, and no others are. -/
theorem order_of_isStuck (hnames : (parts.map Part.name).Nodup)
    (hstuck : ∃ g ∈ parts, IsStuck parts g) :
    ∃ names, order parts = .error (.cycle names) ∧ names.Pairwise (· < ·) ∧
      ∀ name, name ∈ names ↔ ∃ g ∈ parts, g.name = name ∧ IsStuck parts g := by
  have hrounds := rounds_order hnames
  generalize order parts = result at hrounds
  cases hrounds with
  | placed hall hlate hpairs =>
    obtain ⟨g, hg, hstuck⟩ := hstuck
    exact absurd hstuck (not_isStuck_of_placedWithin hnames (hall g hg))
  | @stuck left hne hsub hmem =>
    refine ⟨_, rfl, ?_, fun name => ?_⟩
    · have hdistinct : (sortTexts (left.map Part.name)).Nodup :=
        (sortTexts_perm _).nodup_iff.2 (hnames.sublist (hsub.map _))
      exact ((pairwise_sortTexts _).and hdistinct).imp fun ⟨hle, hne⟩ => lt_of_le_of_ne hle hne
    · rw [mem_sortTexts, List.mem_map]
      constructor
      · rintro ⟨g, hg, hname⟩
        obtain ⟨hg, hnever⟩ := (hmem g).1 hg
        exact ⟨g, hg, hname, (isStuck_iff hnames hg).2 hnever⟩
      · rintro ⟨g, hg, hname, hstuck⟩
        exact ⟨g, (hmem g).2 ⟨hg, (isStuck_iff hnames hg).1 hstuck⟩, hname⟩

/-- An order goes by heights, and by names within a height. -/
theorem exists_height (hnames : (parts.map Part.name).Nodup) {ordered : List Part}
    (h : order parts = .ok ordered) :
    ∃ height : Part → Nat, (∀ g ∈ parts, HasHeight parts g (height g)) ∧
      ordered.Pairwise fun a b => height a < height b ∨ height a = height b ∧ a.name < b.name := by
  have hperm := order_perm hnames h
  have hrounds := rounds_order hnames
  rw [h] at hrounds
  cases hrounds with
  | placed hall hlate hpairs =>
    have hround := fun g hg => exists_round (hall g hg)
    choose! height hbefore hnow using hround
    refine ⟨height, fun g hg => ?_, ?_⟩
    · exact hasHeight_of_placedWithin hnames (hbefore g hg) (hnow g hg)
    · refine hpairs.imp_of_mem fun {a b} ha hb hab => ?_
      have ha := hperm.mem_iff.1 ha
      have hb := hperm.mem_iff.1 hb
      rcases hab with ⟨n, hna, hnb⟩ | ⟨hname, hsame⟩
      · -- one height is below the round, and the other is not
        left
        have hlow : height a < n := Nat.lt_of_not_le fun hle => hbefore a ha (hna.mono hle)
        have hhigh : n ≤ height b := Nat.le_of_not_lt fun hlt => hnb ((hnow b hb).mono hlt)
        omega
      · -- both are placed by the same rounds, so the heights are the same
        refine Or.inr ⟨Nat.le_antisymm ?_ ?_, hname⟩
        · refine Nat.le_of_not_lt fun hlt => hbefore a ha ?_
          exact ((hsame _).2 (hnow b hb)).mono hlt
        · refine Nat.le_of_not_lt fun hlt => hbefore b hb ?_
          exact ((hsame _).1 (hnow a ha)).mono hlt

/-- The order does not depend on how the parts are listed, and neither do the names that are
reported. -/
theorem order_congr (hnames : (parts.map Part.name).Nodup) (hperm : other.Perm parts) :
    order other = order parts := by
  have hmem : ∀ g, g ∈ other ↔ g ∈ parts := fun g => hperm.mem_iff
  have hnames' : (other.map Part.name).Nodup := (hperm.map _).nodup_iff.2 hnames
  have hrounds := rounds_order hnames
  have hrounds' := rounds_order hnames'
  have hall := fun ordered (h : order parts = .ok ordered) => order_perm hnames h
  have hall' := fun ordered (h : order other = .ok ordered) => order_perm hnames' h
  generalize order parts = result at hrounds hall
  generalize order other = result' at hrounds' hall'
  cases hrounds with
  | placed hplaced hlate hpairs =>
    cases hrounds' with
    | placed hplaced' hlate' hpairs' =>
      have hsame := ((hall' _ rfl).trans hperm).trans (hall _ rfl).symm
      -- sorted lists with the same parts are the same, for the order is strict
      refine congrArg Except.ok (List.Perm.eq_of_pairwise ?_ hpairs' ?_ hsame)
      · exact fun a b _ _ hab hba => absurd hba hab.asymm
      · exact hpairs.imp fun hab => (precedes_congr hmem).2 hab
    | stuck hne hsub hleft =>
      -- a part that is never placed for one list would be placed for the other
      obtain ⟨g, hg⟩ := List.exists_mem_of_ne_nil _ hne
      obtain ⟨hg, hnever⟩ := (hleft g).1 hg
      obtain ⟨m, hm⟩ := hplaced g ((hmem g).1 hg)
      exact absurd ((placedWithin_congr hmem).2 hm) (hnever m)
  | stuck hne hsub hleft =>
    cases hrounds' with
    | placed hplaced' hlate' hpairs' =>
      obtain ⟨g, hg⟩ := List.exists_mem_of_ne_nil _ hne
      obtain ⟨hg, hnever⟩ := (hleft g).1 hg
      obtain ⟨m, hm⟩ := hplaced' g ((hmem g).2 hg)
      exact absurd ((placedWithin_congr hmem).1 hm) (hnever m)
    | stuck hne' hsub' hleft' =>
      have hnodup := (hnames.of_map _).sublist hsub
      have hnodup' := (hnames'.of_map _).sublist hsub'
      -- the parts that are never placed are the same, and their names are sorted
      have hsame : List.Perm _ _ := (List.perm_ext_iff_of_nodup hnodup' hnodup).2 fun g => by
        rw [hleft, hleft', hmem]
        simp only [placedWithin_congr hmem]
      refine congrArg (fun names => Except.error (AmalgamError.cycle names)) ?_
      refine List.Perm.eq_of_pairwise ?_ (pairwise_sortTexts _) (pairwise_sortTexts _) ?_
      · exact fun a b _ _ hab hba => le_antisymm hab hba
      · exact (sortTexts_perm _).trans ((hsame.map _).trans (sortTexts_perm _).symm)

/-- **The order of parts.**  Parts of distinct names have an order just when no path of
dependencies reaches a cycle or a name that no part has.  It has every part once, behind all its
dependencies, by height and then by name, however the parts are listed.  Otherwise the names of
the parts with such a path are reported. -/
theorem order_layered (hnames : (parts.map Part.name).Nodup) :
    ((∃ ordered, order parts = .ok ordered) ↔ ∀ g ∈ parts, ¬IsStuck parts g) ∧
      (∀ ordered, order parts = .ok ordered →
        ordered.Perm parts ∧
          (∀ before g after, ordered = before ++ g :: after →
            ∀ dep ∈ g.deps, dep ∈ before.map Part.name) ∧
          ∃ height : Part → Nat, (∀ g ∈ parts, HasHeight parts g (height g)) ∧
            ordered.Pairwise fun a b =>
              height a < height b ∨ height a = height b ∧ a.name < b.name) ∧
      (∀ other : List Part, other.Perm parts → order other = order parts) ∧
      ((∃ g ∈ parts, IsStuck parts g) →
        ∃ names, order parts = .error (.cycle names) ∧ names.Pairwise (· < ·) ∧
          ∀ name, name ∈ names ↔ ∃ g ∈ parts, g.name = name ∧ IsStuck parts g) := by
  refine ⟨exists_order_iff hnames, fun ordered h => ?_, fun other => order_congr hnames,
    order_of_isStuck hnames⟩
  have hperm := order_perm hnames h
  refine ⟨hperm, ?_, exists_height hnames h⟩
  rintro before g after rfl dep hdep
  have hg : g ∈ parts := hperm.mem_iff.1 (List.mem_append_right _ List.mem_cons_self)
  -- a part with a dependency that is missing would be stuck
  have hnamed : dep ∈ parts.map Part.name := by
    by_contra hmissing
    have hfree := (exists_order_iff hnames).1 ⟨_, h⟩ g hg
    exact hfree ⟨g, .refl, Or.inr ⟨dep, hdep, hmissing⟩⟩
  obtain ⟨low, hlow, rfl⟩ := List.mem_map.1 hnamed
  obtain ⟨hself, hpairs⟩ := order_pairwise h
  obtain ⟨-, hbehind, -⟩ := List.pairwise_append.1 hpairs
  rcases List.mem_append.1 (hperm.mem_iff.2 hlow) with hbefore | hlater
  · exact List.mem_map_of_mem hbefore
  · rcases List.mem_cons.1 hlater with rfl | hafter
    · exact absurd hdep (hself low (List.mem_append_right _ List.mem_cons_self))
    · exact absurd hdep ((List.pairwise_cons.1 hbehind).1 low hafter)

/-- Two headers of one height, and one that needs both. -/
def diamondParts : List Part :=
  [{ name := "SDL.hpp", deps := ["events.hpp", "video.hpp"] },
    { name := "video.hpp", deps := ["rect.hpp"] }, { name := "events.hpp", deps := ["rect.hpp"] },
    { name := "rect.hpp" }]

/-- However these headers are listed, the two of one height are placed by their names. -/
theorem order_layered_diamond :
    (diamondParts.map Part.name).Nodup ∧ (∀ g ∈ diamondParts, ¬IsStuck diamondParts g) ∧
      ∀ other : List Part, other.Perm diamondParts →
        order other = .ok [{ name := "rect.hpp" }, { name := "events.hpp", deps := ["rect.hpp"] },
          { name := "video.hpp", deps := ["rect.hpp"] },
          { name := "SDL.hpp", deps := ["events.hpp", "video.hpp"] }] := by
  have hnames : (diamondParts.map Part.name).Nodup := by decide
  have horder : order diamondParts =
      .ok [{ name := "rect.hpp" }, { name := "events.hpp", deps := ["rect.hpp"] },
        { name := "video.hpp", deps := ["rect.hpp"] },
        { name := "SDL.hpp", deps := ["events.hpp", "video.hpp"] }] := by
    simp only [diamondParts, order, List.length_cons, List.length_nil]
    simp [orderFrom, sortByName, isReady, List.mergeSort]
    rfl
  obtain ⟨hexists, -, hcongr, -⟩ := order_layered hnames
  refine ⟨hnames, hexists.1 ⟨_, horder⟩, fun other hperm => ?_⟩
  rw [hcongr other hperm, horder]

/-- A header that includes itself is reported, and a header beside it is not. -/
example :
    order [{ name := "video.hpp", deps := ["video.hpp"] }, { name := "rect.hpp" }] =
      .error (.cycle ["video.hpp"]) := by
  decide +kernel

end HeaderApi.Part
