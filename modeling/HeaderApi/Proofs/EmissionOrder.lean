import HeaderApi.Amalgam.Printer
import HeaderApi.Proofs.PartOrder

/-!
# The order of blocks

The blocks of the parts stand in an amalgamation in two groups: the unconditional ones inside the
namespace, and the conditional ones behind it.  So a part comes behind its dependencies, unless it
is unconditional and they are conditional.
-/

namespace HeaderApi

open Text

/-! ## Blocks and their places -/

namespace Part

/-- The block of a part that has content. -/
def block? (part : Part) : Option (List Char) :=
  part.content?.map fun content =>
    block (if part.conditional then part.conditionalContent content else content)

/-- The pieces of some parts, each block with the part that it comes from. -/
def marked (parts : List Part) : List (Option Part × List Char) :=
  parts.flatMap fun part =>
    match part.block? with
    | some text => [(some part, text), (none, [])]
    | none => []

theorem marked_cons (part : Part) (parts : List Part) :
    marked (part :: parts) =
      (match part.block? with
        | some text => [(some part, text), (none, [])]
        | none => []) ++ marked parts := rfl

/-- The texts of some parts are their blocks, each with an empty line behind it. -/
theorem map_snd_marked (parts : List Part) :
    (marked parts).map Prod.snd = (parts.filterMap block?).flatMap fun text => [text, []] := by
  induction parts with
  | nil => rfl
  | cons part parts ih =>
    rw [marked_cons, List.map_append, ih, List.filterMap_cons]
    cases part.block? with
    | none => rfl
    | some text => rfl

/-- The marked pieces of the plain parts are the plain blocks. -/
theorem map_snd_marked_plain (parts : List Part) :
    (marked (parts.filter (!·.conditional))).map Prod.snd = plainBlocks parts := by
  unfold marked plainBlocks
  rw [List.map_flatMap]
  refine List.flatMap_congr fun part hpart => ?_
  have hplain : part.conditional = false := by
    simpa using (List.mem_filter.1 hpart).2
  -- in this group the block is that of the bare content
  unfold block?
  cases part.content? with
  | none => rfl
  | some content =>
    rw [hplain]
    rfl

/-- The marked pieces of the conditional parts are the conditional blocks. -/
theorem map_snd_marked_conditional (parts : List Part) :
    (marked (parts.filter Part.conditional)).map Prod.snd = conditionalBlocks parts := by
  unfold marked conditionalBlocks
  rw [List.map_flatMap]
  refine List.flatMap_congr fun part hpart => ?_
  have hconditional : part.conditional = true := (List.mem_filter.1 hpart).2
  unfold block?
  cases part.content? with
  | none => rfl
  | some content =>
    rw [hconditional]
    rfl

/-- The marks are the parts with a block, in their order. -/
theorem filterMap_fst_marked (parts : List Part) :
    (marked parts).filterMap Prod.fst = parts.filter fun part => part.block?.isSome := by
  induction parts with
  | nil => rfl
  | cons part parts ih =>
    rw [marked_cons, List.filterMap_append, ih]
    cases hblock : part.block? with
    | none => rw [List.filter_cons_of_neg (by simp [hblock])]; rfl
    | some text => rw [List.filter_cons_of_pos (by simp [hblock])]; rfl

/-- A marked piece is the block of its part. -/
theorem block?_of_mem_marked {parts : List Part} {part : Part} {text : List Char}
    (h : (some part, text) ∈ marked parts) : part.block? = some text := by
  obtain ⟨other, -, hmem⟩ := List.mem_flatMap.1 h
  cases hblock : other.block? with
  | none =>
    rw [hblock] at hmem
    cases hmem
  | some block =>
    rw [hblock] at hmem
    rcases List.mem_cons.1 hmem with heq | hmem
    · cases heq
      exact hblock
    · cases List.mem_singleton.1 hmem

end Part

namespace Collection

/-- Pieces that are no blocks. -/
def unmarked (texts : List (List Char)) : List (Option Part × List Char) :=
  texts.map fun text => (none, text)

/-- The pieces of an amalgamation, each block with the part that it comes from. -/
def layout (options : AmalgamOptions) (includes : List String) (parts : List Part) :
    List (Option Part × List Char) :=
  unmarked (["// ".toList ++ options.title.toList, "#ifndef ".toList ++ options.guard.toList,
      "#define ".toList ++ options.guard.toList, []] ++
      Header.block (includes.map systemInclude) ++ [namespaceOpen options.namespaceName, []]) ++
    Part.marked (parts.filter (!·.conditional)) ++
    unmarked [namespaceClose options.namespaceName, []] ++
    Part.marked (parts.filter Part.conditional) ++
    unmarked ["#endif // ".toList ++ options.guard.toList]

/-- The parts with a block in the order of their blocks. -/
def emitted (parts : List Part) : List Part :=
  (parts.filter (!·.conditional) ++ parts.filter Part.conditional).filter
    fun part => part.block?.isSome

variable {options : AmalgamOptions} {includes : List String} {parts : List Part}

theorem map_snd_unmarked (texts : List (List Char)) : (unmarked texts).map Prod.snd = texts := by
  rw [unmarked, List.map_map]
  exact List.map_id texts

theorem filterMap_fst_unmarked (texts : List (List Char)) :
    (unmarked texts).filterMap Prod.fst = [] := by
  rw [unmarked, List.filterMap_map]
  exact List.filterMap_eq_nil_iff.2 fun _ _ => rfl

/-- The pieces of the layout are those of the text. -/
theorem map_snd_layout (options : AmalgamOptions) (includes : List String) (parts : List Part) :
    (layout options includes parts).map Prod.snd = pieces options includes parts := by
  simp only [layout, pieces, List.map_append, map_snd_unmarked, Part.map_snd_marked_plain,
    Part.map_snd_marked_conditional]

/-- The marks of the layout are the emitted parts. -/
theorem filterMap_fst_layout (options : AmalgamOptions) (includes : List String)
    (parts : List Part) : (layout options includes parts).filterMap Prod.fst = emitted parts := by
  simp only [layout, emitted, List.filterMap_append, filterMap_fst_unmarked,
    Part.filterMap_fst_marked, List.filter_append, List.nil_append, List.append_nil]

/-- A marked piece of an amalgamation is the block of its part. -/
theorem block?_of_mem_layout {part : Part} {text : List Char}
    (h : (some part, text) ∈ layout options includes parts) : part.block? = some text := by
  have hunmarked : ∀ texts, (some part, text) ∉ unmarked texts := by
    intro texts hmem
    obtain ⟨_, -, heq⟩ := List.mem_map.1 hmem
    cases heq
  simp only [layout, List.mem_append, hunmarked, false_or, or_false] at h
  rcases h with h | h
  · exact Part.block?_of_mem_marked h
  · exact Part.block?_of_mem_marked h

/-- The block of a part is the piece with the given number. -/
def BlockAt (options : AmalgamOptions) (includes : List String) (parts : List Part) (part : Part)
    (i : Nat) : Prop :=
  ∃ text, part.block? = some text ∧ (layout options includes parts)[i]? = some (some part, text)

/-- Every part with a block is emitted. -/
theorem mem_emitted {part : Part} (hpart : part ∈ parts) (hblock : part.block?.isSome = true) :
    part ∈ emitted parts := by
  refine List.mem_filter.2 ⟨List.mem_append.2 ?_, hblock⟩
  cases hconditional : part.conditional with
  | false => exact Or.inl (List.mem_filter.2 ⟨hpart, by rw [hconditional]; rfl⟩)
  | true => exact Or.inr (List.mem_filter.2 ⟨hpart, hconditional⟩)

/-- The block of an emitted part has a number. -/
theorem exists_blockAt (options : AmalgamOptions) (includes : List String) {part : Part}
    (h : part ∈ emitted parts) :
    ∃ i, BlockAt options includes parts part i := by
  rw [← filterMap_fst_layout options includes parts] at h
  obtain ⟨⟨mark, text⟩, hmem, rfl⟩ := List.mem_filterMap.1 h
  obtain ⟨i, hi, hpiece⟩ := List.getElem_of_mem hmem
  refine ⟨i, text, block?_of_mem_layout hmem, ?_⟩
  rw [List.getElem?_eq_getElem hi, hpiece]

/-- Blocks stand in the order of the emitted parts. -/
theorem lt_of_blockAt {f g : Part} (hne : f ≠ g)
    (hpairs : (emitted parts).Pairwise fun a b => ¬(a = f ∧ b = g)) {i j : Nat}
    (hi : BlockAt options includes parts g i) (hj : BlockAt options includes parts f j) :
    i < j := by
  obtain ⟨gText, -, hi⟩ := hi
  obtain ⟨fText, -, hj⟩ := hj
  rw [← filterMap_fst_layout options includes parts, List.pairwise_filterMap] at hpairs
  obtain ⟨hilt, hi⟩ := List.getElem?_eq_some_iff.1 hi
  obtain ⟨hjlt, hj⟩ := List.getElem?_eq_some_iff.1 hj
  rcases Nat.lt_trichotomy i j with hlt | rfl | hgt
  · exact hlt
  · rw [hi] at hj
    cases hj
    exact absurd rfl hne
  · have hpair := List.pairwise_iff_getElem.1 hpairs j i hjlt hilt hgt
    exact absurd ⟨rfl, rfl⟩ (hpair f (by rw [hj]) g (by rw [hi]))

/-! ## The two groups -/

/-- A pair of parts in the wrong order among the emitted ones is a pair within a group, or one of
an unconditional part and a conditional one. -/
theorem pairwise_emitted {R : Part → Part → Prop}
    (hplain : (parts.filter (!·.conditional)).Pairwise R)
    (hconditional : (parts.filter Part.conditional).Pairwise R)
    (hcross : ∀ a ∈ parts, ∀ b ∈ parts, a.conditional = false → b.conditional = true → R a b) :
    (emitted parts).Pairwise R := by
  refine List.Pairwise.filter _ (List.pairwise_append.2 ⟨hplain, hconditional, fun a ha b hb => ?_⟩)
  obtain ⟨ha, haplain⟩ := List.mem_filter.1 ha
  obtain ⟨hb, hbconditional⟩ := List.mem_filter.1 hb
  exact hcross a ha b hb (by simpa using haplain) hbconditional

/-- An order in which all of one part come before all of another is kept, unless the first is
conditional and the second is not. -/
theorem pairwise_emitted_of_index {f g : Part}
    (hindex : ∀ i j : Nat, parts[i]? = some g → parts[j]? = some f → i < j)
    (hgroups : ¬(g.conditional = true ∧ f.conditional = false)) :
    (emitted parts).Pairwise fun a b => ¬(a = f ∧ b = g) := by
  have hparts : parts.Pairwise fun a b => ¬(a = f ∧ b = g) := by
    refine List.pairwise_iff_getElem.2 fun i j hi hj hlt => ?_
    rintro ⟨hf, hg⟩
    have hback := hindex j i (List.getElem?_eq_some_iff.2 ⟨hj, hg⟩)
      (List.getElem?_eq_some_iff.2 ⟨hi, hf⟩)
    omega
  refine pairwise_emitted (hparts.filter _) (hparts.filter _) fun a _ b _ ha hb => ?_
  rintro ⟨rfl, rfl⟩
  exact hgroups ⟨hb, ha⟩

/-- An unconditional part comes before every conditional one. -/
theorem pairwise_emitted_of_groups {f g : Part} (hg : g.conditional = true)
    (hf : f.conditional = false) : (emitted parts).Pairwise fun a b => ¬(a = g ∧ b = f) := by
  refine pairwise_emitted ?_ ?_ fun a _ b _ ha _ => ?_
  -- the conditional part is not in the first group, and the other not in the second
  · refine List.pairwise_of_forall_mem_list fun a ha b _ => ?_
    rintro ⟨rfl, -⟩
    simp [hg] at ha
  · refine List.pairwise_of_forall_mem_list fun a _ b hb => ?_
    rintro ⟨-, rfl⟩
    simp [hf] at hb
  · rintro ⟨rfl, -⟩
    rw [hg] at ha
    cases ha

/-- **The order of dependent blocks.**  Let one part of an order depend on another, directly or
through further parts, and let both have a block.  Both blocks stand in the text, and that of the
dependency comes first except when the dependency is conditional and the part that needs it is
not.  Where no name stands twice the order has all parts. -/
theorem print_dependent_blocks (options : AmalgamOptions) (c : Collection) {ordered : List Part}
    {f g : Part} (horder : Part.order c.parts = .ok ordered) (hf : f ∈ ordered)
    (hdep : Relation.TransGen (Part.DependsOn ordered) f g)
    (hfblock : f.content?.isSome = true) (hgblock : g.content?.isSome = true) :
    print options c =
        .ok (joinLines ((layout options c.includes ordered).map Prod.snd) ++ ['\n']) ∧
      ((c.parts.map Part.name).Nodup → ordered.Perm c.parts) ∧
      (∃ i, BlockAt options c.includes ordered g i) ∧
      (∃ j, BlockAt options c.includes ordered f j) ∧
      ((∀ i j, BlockAt options c.includes ordered g i → BlockAt options c.includes ordered f j →
          i < j) ↔
        ¬(g.conditional = true ∧ f.conditional = false)) := by
  have hindex : ∀ i j : Nat, ordered[i]? = some g → ordered[j]? = some f → i < j :=
    fun i j => Part.index_lt_of_transGen horder hdep
  have hg : g ∈ ordered := by
    cases hdep with
    | single hdep => exact hdep.1
    | tail _ hdep => exact hdep.1
  have hne : f ≠ g := by
    rintro rfl
    obtain ⟨i, hi⟩ := List.getElem?_of_mem hf
    exact absurd (hindex i i hi hi) (Nat.lt_irrefl i)
  have hprint : print options c =
      .ok (joinLines ((layout options c.includes ordered).map Prod.snd) ++ ['\n']) := by
    rw [print, horder, map_snd_layout]
    rfl
  have hgmem : g ∈ emitted ordered :=
    mem_emitted hg (by rw [Part.block?, Option.isSome_map, hgblock])
  have hfmem : f ∈ emitted ordered :=
    mem_emitted hf (by rw [Part.block?, Option.isSome_map, hfblock])
  obtain ⟨i, hi⟩ := exists_blockAt options c.includes hgmem
  obtain ⟨j, hj⟩ := exists_blockAt options c.includes hfmem
  refine ⟨hprint, fun hnames => Part.order_perm hnames horder, ⟨i, hi⟩, ⟨j, hj⟩, ?_, ?_⟩
  · rintro hbefore ⟨hgc, hfc⟩
    -- both orders can not hold at once
    have hback := lt_of_blockAt (Ne.symm hne) (pairwise_emitted_of_groups hgc hfc) hj hi
    have hahead := hbefore i j hi hj
    omega
  · intro hgroups i j hi hj
    exact lt_of_blockAt hne (pairwise_emitted_of_index hindex hgroups) hi hj

/-- A conditional header that declares a type. -/
def widePart : Part where
  name := "wide.hpp"
  conditional := true
  content := some ["#ifdef WIDE".toList, "using Wide = long;".toList, "#endif".toList]

/-- An unconditional header without content that includes the type. -/
def typesPart : Part where
  name := "types.hpp"
  deps := ["wide.hpp"]

/-- A conditional header that uses the type. -/
def areaPart : Part where
  name := "area.hpp"
  deps := ["types.hpp"]
  conditional := true
  content := some ["#ifdef WIDE".toList, "Wide area();".toList, "#endif".toList]

/-- An unconditional header that uses the type. -/
def rootPart : Part where
  name := "root.hpp"
  deps := ["wide.hpp"]
  content := some ["Wide width();".toList]

/-- The blocks of two conditional headers, one of which needs the other through a header without
content. -/
theorem print_dependent_blocks_area :
    Part.order [areaPart, typesPart, widePart] = .ok [widePart, typesPart, areaPart] ∧
      ∀ i j, BlockAt {} [] [widePart, typesPart, areaPart] widePart i →
        BlockAt {} [] [widePart, typesPart, areaPart] areaPart j → i < j := by
  have horder : Part.order [areaPart, typesPart, widePart] =
      .ok [widePart, typesPart, areaPart] := by
    decide +kernel
  have hdep : Relation.TransGen (Part.DependsOn [widePart, typesPart, areaPart]) areaPart
      widePart :=
    .tail (.single ⟨by decide, by decide⟩) (b := typesPart) ⟨by decide, by decide⟩
  have hblocks := print_dependent_blocks {} ⟨[], [areaPart, typesPart, widePart]⟩ horder
    (by decide) hdep rfl rfl
  exact ⟨horder, hblocks.2.2.2.2.2 (by decide)⟩

/-- The block of a header is not always behind those of the headers that it includes. -/
theorem not_forall_blocks_behind_dependencies :
    ¬∀ (options : AmalgamOptions) (c : Collection) (ordered : List Part) (f g : Part),
      Part.order c.parts = .ok ordered → f ∈ ordered →
      Relation.TransGen (Part.DependsOn ordered) f g →
      f.content?.isSome = true → g.content?.isSome = true →
      ∀ i j, BlockAt options c.includes ordered g i → BlockAt options c.includes ordered f j →
        i < j := by
  intro hall
  have horder : Part.order [rootPart, widePart] = .ok [widePart, rootPart] := by
    decide +kernel
  have hlt : 10 < 6 := hall {} ⟨[], [rootPart, widePart]⟩ _ rootPart widePart horder (by decide)
    (.single ⟨by decide, by decide⟩) rfl rfl 10 6 ⟨_, rfl, rfl⟩ ⟨_, rfl, rfl⟩
  omega

end Collection

end HeaderApi
