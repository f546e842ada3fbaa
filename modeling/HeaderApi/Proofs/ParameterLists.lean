import HeaderApi.Parameter.Printer
import HeaderApi.Parameter.Reader
import HeaderApi.Proofs.TightTexts
import HeaderApi.Proofs.TopLevelParts

/-!
# Printed parameter lists

A printed list of parameters is read back as the same list: the commas between the parameters are
the only ones outside of brackets and quotes, the first equals sign there opens the default value,
and the name stands at the end of the declaration, in front of its extent.
-/

namespace HeaderApi

open Text Source Spelling

/-! ## Default values -/

namespace Parameter

variable {cs tail : List Char}

/-- An equals sign is looked for behind a text that holds none outside of brackets. -/
theorem cutDefault_append (hquote : ∀ c ∈ cs, isQuote c = false) {depth depth' : Int}
    (h : Encloses '=' ⟨none, depth⟩ cs) (hend : Nesting.after ⟨none, depth⟩ cs = ⟨none, depth'⟩)
    (previous : Option Char) (rest : List Char) :
    cutDefault previous depth (cs ++ rest) =
      (cutDefault (cs.getLast?.or previous) depth' rest).map fun cut => (cs ++ cut.1, cut.2) := by
  induction cs generalizing depth previous with
  | nil =>
    obtain rfl : depth = depth' := congrArg Nesting.depth hend
    simp
  | cons c cs ih =>
    obtain ⟨hc, hcs⟩ := List.forall_mem_cons.1 hquote
    obtain ⟨hsign, hencloses⟩ := encloses_cons.1 h
    have hnext : Nesting.next c ⟨none, depth⟩ =
        ⟨none, if isOpening c then depth + 1 else if isClosing c then depth - 1 else depth⟩ := by
      simp only [Nesting.next, hc, Bool.false_eq_true, if_false]
      split
      · rfl
      · split <;> rfl
    -- an equals sign in the text is nested and no sign of a default
    have hdepth : (decide (c = '=') && decide (depth = 0)) = false := by
      by_cases hmark : c = '='
      · have hnested := hsign hmark
        simpa [hmark, Nesting.top] using hnested
      · simp [hmark]
    rw [hnext] at hencloses
    rw [Nesting.after_cons, hnext] at hend
    have hlast : (c :: cs).getLast?.or previous = cs.getLast?.or (some c) := by
      rw [List.getLast?_cons]
      cases cs.getLast? <;> rfl
    rw [List.cons_append, cutDefault, hdepth, Bool.false_and, if_neg Bool.false_ne_true]
    simp only [ih hcs hencloses hend, hlast, Option.map_map]
    rfl

/-- A text without an equals sign is not cut. -/
theorem cutDefault_of_not_mem (h : '=' ∉ cs) (previous : Option Char) (depth : Int) :
    cutDefault previous depth cs = none := by
  induction cs generalizing previous depth with
  | nil => rfl
  | cons c cs ih =>
    obtain ⟨hc, hcs⟩ := not_or.1 (List.mem_cons.not.1 h)
    simp [cutDefault, Ne.symm hc, ih hcs]

theorem equals_not_mem_of_blank (h : ∀ c ∈ tail, isBlank c = true) : '=' ∉ tail := fun hmem =>
  absurd (h _ hmem) (by decide)

/-- Blanks behind a text stay behind its cut. -/
theorem cutDefault_append_of_blank (h : ∀ c ∈ tail, isBlank c = true) (previous : Option Char)
    (depth : Int) (cs : List Char) :
    cutDefault previous depth (cs ++ tail) =
      (cutDefault previous depth cs).map fun cut => (cut.1, cut.2 ++ tail) := by
  induction cs generalizing previous depth with
  | nil => exact cutDefault_of_not_mem (equals_not_mem_of_blank h) previous depth
  | cons c cs ih =>
    have hcomparison : isComparison previous (cs ++ tail) = isComparison previous cs := by
      cases cs with
      | nil =>
        have hhead : tail.head? ≠ some '=' := fun hhead =>
          equals_not_mem_of_blank h (List.mem_of_mem_head? hhead)
        simp [isComparison, hhead]
      | cons d cs => rfl
    rw [List.cons_append, cutDefault, cutDefault, hcomparison]
    split
    · rfl
    · simp only [ih, Option.map_map]
      rfl

/-- The blanks behind a fragment do not count. -/
theorem ofFragment_append_of_blank (h : ∀ c ∈ tail, isBlank c = true) (cs : List Char) :
    ofFragment (cs ++ tail) = ofFragment cs := by
  have hsplit : splitDefault (cs ++ tail) = splitDefault cs := by
    rw [splitDefault, splitDefault, cutDefault_append_of_blank h]
    cases cutDefault none 0 cs with
    | none => simp only [Option.map_none, trim_append_of_blank h]
    | some cut => simp only [Option.map_some, trim_append_of_blank h]
  simp only [ofFragment, hsplit, trim_append_of_blank h]

/-- Neither does the space in front of a fragment that begins with no equals sign. -/
theorem ofFragment_space (h : cs.head? ≠ some '=') : ofFragment (' ' :: cs) = ofFragment cs := by
  have hcut : cutDefault (some ' ') 0 cs = cutDefault none 0 cs := by
    cases cs with
    | nil => rfl
    | cons c cs =>
      have hc : c ≠ '=' := by simpa using h
      simp [cutDefault, hc]
  have hspace : cutDefault none 0 (' ' :: cs) =
      (cutDefault none 0 cs).map fun cut => (' ' :: cut.1, cut.2) := by
    rw [← hcut]
    rfl
  have htrim (text : List Char) : trim (' ' :: text) = trim text := trim_cons_of_blank rfl text
  have hsplit : splitDefault (' ' :: cs) = splitDefault cs := by
    rw [splitDefault, splitDefault, hspace]
    cases cutDefault none 0 cs with
    | none => simp only [Option.map_none, htrim]
    | some cut => simp only [Option.map_some, htrim]
  simp only [ofFragment, hsplit, htrim]

/-! ## Names and extents -/

/-- The name at the end of a declaration. -/
theorem nameAtEnd_reverse (front : List Char) {name : List Char} {c : Char} (hne : name ≠ [])
    (hname : ∀ d ∈ name, isWord d = true) (hc : isBlank c = true ∨ isMark c = true) :
    nameAtEnd (front ++ c :: name).reverse = some (front ++ [c], name) := by
  have hword : isWord c = false := by
    rcases hc with hc | hc
    · exact Bool.eq_false_iff.2 fun hword => by simp [isBlank_of_isWord hword] at hc
    · exact isWord_of_isMark hc
  have hchars : ∀ d ∈ name.reverse, isWord d = true := fun d hd => hname d (List.mem_reverse.1 hd)
  have htext : (front ++ c :: name).reverse = name.reverse ++ c :: front.reverse := by simp
  have htake : (name.reverse ++ c :: front.reverse).takeWhile isWord = name.reverse :=
    takeWhile_append_cons hchars hword
  have hdrop : (name.reverse ++ c :: front.reverse).dropWhile isWord = c :: front.reverse :=
    dropWhile_append_cons hchars hword
  have hseparates : (isBlank c || isMark c) = true := Bool.or_eq_true_iff.2 hc
  obtain ⟨d, others, hcons⟩ := List.exists_cons_of_ne_nil (List.reverse_ne_nil_iff.2 hne)
  have hback : name = (d :: others).reverse := by rw [← hcons, List.reverse_reverse]
  rw [htext, nameAtEnd, htake, hdrop, hcons]
  simp [hseparates, hback]

/-- What stands in the brackets at the end is held. -/
theorem extentAtEnd_append {inside : List Char} (h : ∀ c ∈ inside, c ≠ '[' ∧ c ≠ ']')
    (held before : List Char) :
    extentAtEnd held (inside ++ '[' :: before) =
      extentAtEnd (inside.reverse ++ held) ('[' :: before) := by
  induction inside generalizing held with
  | nil => rfl
  | cons c inside ih =>
    obtain ⟨⟨hopen, hclose⟩, hinside⟩ := List.forall_mem_cons.1 h
    rw [List.cons_append, extentAtEnd, if_neg hclose, if_neg hopen, ih hinside]
    simp

/-- The extent of a parameter, if it has one: brackets around a text with single spaces that holds
no further brackets and no quotes. -/
inductive IsExtent : List Char → Prop
  | none : IsExtent []
  | one {inside : List Char} (hplain : ∀ c ∈ inside, isPlain c = true)
      (hspaces : collapse inside = inside) : IsExtent ('[' :: (inside ++ [']']))

/-- A declaration ends in a name, behind which an extent may stand. -/
theorem parts?_declaration (front : List Char) {name extent : List Char} {c : Char}
    (hne : name ≠ []) (hname : ∀ d ∈ name, isWord d = true)
    (hc : isBlank c = true ∨ isMark c = true) (hextent : IsExtent extent) :
    parts? (front ++ c :: name ++ extent) = some ⟨front ++ [c], name, extent⟩ := by
  have hend := nameAtEnd_reverse front hne hname hc
  -- the text is read from its end, where the name or the extent stands
  obtain ⟨d, others, hreverse, hd⟩ : ∃ d others, (front ++ c :: name).reverse = d :: others ∧
      isWord d = true := by
    obtain ⟨d, others, hcons⟩ := List.exists_cons_of_ne_nil (List.reverse_ne_nil_iff.2 hne)
    refine ⟨d, others ++ c :: front.reverse, by simp [hcons], hname d ?_⟩
    exact List.mem_reverse.1 (hcons ▸ List.mem_cons_self)
  cases hextent with
  | none =>
    rw [List.append_nil, parts?]
    split
    · rename_i before hbracket
      rw [hbracket, List.cons.injEq] at hreverse
      exact absurd hd (by rw [← hreverse.1]; decide)
    · rw [hend]
      rfl
  | @one inside hinside =>
    have hbrackets : ∀ e ∈ inside.reverse, e ≠ '[' ∧ e ≠ ']' := by
      intro e he
      have hplain := hinside e (List.mem_reverse.1 he)
      constructor
      · rintro rfl
        exact absurd hplain (by decide)
      · rintro rfl
        exact absurd hplain (by decide)
    have htext : (front ++ c :: name ++ '[' :: (inside ++ [']'])).reverse =
        ']' :: (inside.reverse ++ '[' :: (front ++ c :: name).reverse) := by simp
    have htrim : trimStart (front ++ c :: name).reverse = (front ++ c :: name).reverse := by
      rw [hreverse, trimStart_cons (isBlank_of_isWord hd)]
    rw [parts?, htext]
    simp only [extentAtEnd_append hbrackets, List.reverse_reverse]
    rw [extentAtEnd, if_neg (by decide), if_pos rfl, htrim, hend]

end Parameter

/-! ## Printed declarations -/

namespace Declarator

/-- A closing bracket ends the last of the brackets. -/
theorem readGroups_append {inside : List Char} (h : ']' ∉ inside) :
    readGroups true (inside ++ [']']) = some (inside ++ [']']) := by
  induction inside with
  | nil => rfl
  | cons c inside ih =>
    obtain ⟨hc, hinside⟩ := not_or.1 (List.mem_cons.not.1 h)
    rw [List.cons_append, readGroups, decide_eq_true (Ne.symm hc), ih hinside]
    rfl

/-- The first visible character of a text that does not end with a blank. -/
theorem exists_trimStart_append {cs : List Char} (hne : cs ≠ [])
    (hlast : ∀ c ∈ cs.getLast?, isBlank c = false) (tail : List Char) :
    ∃ c rest, trimStart (cs ++ tail) = c :: rest ∧ c ∈ cs := by
  induction cs with
  | nil => exact absurd rfl hne
  | cons c cs ih =>
    cases hc : isBlank c with
    | false => exact ⟨c, cs ++ tail, trimStart_cons hc _, List.mem_cons_self⟩
    | true =>
      cases cs with
      | nil => exact absurd hc (by simp [hlast c rfl])
      | cons d cs =>
        obtain ⟨e, rest, htrim, hmem⟩ := ih (List.cons_ne_nil d cs) hlast
        have hdrop : trimStart (c :: (d :: cs ++ tail)) = trimStart (d :: cs ++ tail) :=
          List.dropWhile_cons_of_pos hc
        exact ⟨e, rest, hdrop.trans htrim, List.mem_cons_of_mem c hmem⟩

/-- A type is cut in front of its extent. -/
theorem splitExtents_append {base inside : List Char} (hbase : '[' ∉ base) (hfeed : '\n' ∉ base)
    (hlast : ∀ c ∈ base.getLast?, isBlank c = false) (hinside : ']' ∉ inside) :
    splitExtents (base ++ '[' :: (inside ++ [']'])) = some (base, '[' :: (inside ++ [']'])) := by
  induction base with
  | nil =>
    have htrim : trimStart ('[' :: (inside ++ [']'])) = '[' :: (inside ++ [']']) :=
      trimStart_cons (by decide) _
    rw [List.nil_append, splitExtents.eq_def]
    simp only [htrim, readExtents?, readGroups_append hinside, Option.map_some]
  | cons c base ih =>
    obtain ⟨d, rest, htrim, hd⟩ :=
      exists_trimStart_append (List.cons_ne_nil c base) hlast ('[' :: (inside ++ [']']))
    -- no extent begins in front of the first bracket
    have hextents : readExtents? (d :: rest) = none := by
      rw [readExtents?.eq_def]
      split
      · rename_i hbracket
        exact absurd ((List.cons.inj hbracket).1 ▸ hd) hbase
      · rfl
    obtain ⟨-, hbracket⟩ := not_or.1 (List.mem_cons.not.1 hbase)
    obtain ⟨hc, hfeed⟩ := not_or.1 (List.mem_cons.not.1 hfeed)
    have hlast' : ∀ c ∈ base.getLast?, isBlank c = false := by
      cases base with
      | nil => simp
      | cons e base => exact hlast
    rw [List.cons_append] at htrim ⊢
    rw [splitExtents.eq_def]
    simp only [htrim, hextents, if_neg (Ne.symm hc), ih hbracket hfeed hlast', Option.map_some]

end Declarator

/-! ## Declarations -/

namespace Parameter

open Declarator

/-- The type of a parameter without its extent: in its one spelling, without quotes, equals signs
and square brackets, and with its commas in brackets. -/
structure IsBase (base : List Char) : Prop where
  ne_nil : base ≠ []
  normal : normalize base = base
  chars : ∀ c ∈ base, c ∉ "\"'=[]".toList
  level : IsLevel ',' base

/-- A name: a run of word characters. -/
structure IsName (name : List Char) : Prop where
  ne_nil : name ≠ []
  isWord : ∀ c ∈ name, Text.isWord c = true

variable {base name extent : List Char}

theorem IsBase.isTight (h : IsBase base) : IsTight base := h.normal ▸ isTight_normalize base

theorem IsBase.not_mem (h : IsBase base) {c : Char} (hc : c ∈ "\"'=[]".toList) : c ∉ base :=
  fun hmem => h.chars c hmem hc

/-- A base has no quotes. -/
theorem IsBase.isQuote (h : IsBase base) : ∀ c ∈ base, Source.isQuote c = false := by
  intro c hc
  refine Bool.eq_false_iff.2 fun hquote => h.chars c hc ?_
  simp only [Source.isQuote, Bool.or_eq_true, decide_eq_true_eq] at hquote
  rcases hquote with rfl | rfl <;> decide

/-- A word character is no bracket and no quote. -/
theorem isPlain_of_isWord {c : Char} (h : isWord c = true) : isPlain c = true := by
  by_contra hplain
  have hmarks : c ∈ "\"'(<[\x7b)>]\x7d".toList := by
    simp only [isPlain, Source.isQuote, isOpening, isClosing, Bool.and_eq_true, Bool.not_eq_true',
      Bool.or_eq_false_iff, decide_eq_false_iff_not] at hplain
    simp only [String.reduceToList, List.mem_cons, List.not_mem_nil, or_false]
    tauto
  have hwords : ∀ d ∈ "\"'(<[\x7b)>]\x7d".toList, isWord d = false :=
    List.all_iff_forall_prop.1 (by decide)
  rw [hwords c hmarks] at h
  cases h

/-- A text with single spaces whose commas and equals signs stand in brackets, and which has no
quotes. -/
structure IsCode (cs : List Char) : Prop extends IsTight cs where
  comma : IsLevel ',' cs
  equals : IsLevel '=' cs
  isQuote : ∀ c ∈ cs, Source.isQuote c = false

theorem IsCode.append {front cs : List Char} (hfront : IsCode front) (hcs : IsCode cs) :
    IsCode (front ++ cs) where
  toIsTight := hfront.toIsTight.append hcs.toIsTight
  comma := hfront.comma.append hcs.comma
  equals := hfront.equals.append hcs.equals
  isQuote c hc := (List.mem_append.1 hc).elim (hfront.isQuote c) (hcs.isQuote c)

/-- Two texts of code with a space between them make one. -/
theorem IsCode.join {front cs : List Char} (hne : front ≠ []) (hcs : cs ≠ [])
    (hfront : IsCode front) (hcode : IsCode cs) : IsCode (front ++ ' ' :: cs) where
  toIsTight := hfront.toIsTight.join hne hcs hcode.toIsTight
  comma := by
    have hspace : IsLevel ',' [' '] := by decide
    exact hfront.comma.append (hspace.append hcode.comma)
  equals := by
    have hspace : IsLevel '=' [' '] := by decide
    exact hfront.equals.append (hspace.append hcode.equals)
  isQuote c hc := by
    rcases List.mem_append.1 hc with hc | hc
    · exact hfront.isQuote c hc
    · rcases List.mem_cons.1 hc with rfl | hc
      · decide
      · exact hcode.isQuote c hc

theorem IsBase.isCode (h : IsBase base) : IsCode base where
  toIsTight := h.isTight
  comma := h.level
  equals := ⟨h.level.ends, encloses_of_not_mem (h.not_mem (by decide))⟩
  isQuote := h.isQuote

/-- A tight text of plain characters without commas and equals signs is code. -/
theorem isCode_of_isPlain {cs : List Char} (htight : IsTight cs) (h : ∀ c ∈ cs, isPlain c = true)
    (hcomma : ',' ∉ cs) (hequals : '=' ∉ cs) : IsCode cs where
  toIsTight := htight
  comma := isLevel_of_isPlain h hcomma
  equals := isLevel_of_isPlain h hequals
  isQuote c hc := isQuote_of_isPlain (h c hc)

theorem IsName.isCode (h : IsName name) : IsCode name :=
  isCode_of_isPlain (isTight_of_visible fun c hc => isBlank_of_isWord (h.isWord c hc))
    (fun c hc => isPlain_of_isWord (h.isWord c hc))
    (fun hmem => absurd (h.isWord _ hmem) (by decide))
    (fun hmem => absurd (h.isWord _ hmem) (by decide))

/-- An extent is code. -/
theorem IsExtent.isCode (h : IsExtent extent) : IsCode extent := by
  cases h with
  | none => exact isCode_of_isPlain isTight_nil (by simp) (by simp) (by simp)
  | one hinside hspaces =>
    have htight := collapse_eq_self_iff.1 hspaces
    have hopen : IsTight ['['] := isTight_of_visible (List.forall_mem_singleton.2 (by decide))
    have hclose : IsTight [']'] := isTight_of_visible (List.forall_mem_singleton.2 (by decide))
    refine ⟨hopen.append (htight.append hclose), isLevel_extent (by decide) hinside,
      isLevel_extent (by decide) hinside, ?_⟩
    intro c hc
    simp only [List.mem_cons, List.mem_append, List.not_mem_nil, or_false] at hc
    rcases hc with rfl | hc | rfl
    · decide
    · exact isQuote_of_isPlain (hinside c hc)
    · decide

/-- The declaration of a name: the type, a space where no mark ends it, the name and the extent. -/
theorem declare_eq (hbase : IsBase base) (hextent : IsExtent extent) (name : List Char) :
    declare (base ++ extent) name = attach base name ++ extent := by
  have hbracket : '[' ∉ base := hbase.not_mem (by decide)
  cases hextent with
  | none => rw [List.append_nil, List.append_nil, declare, splitExtents_eq_none hbracket]
  | @one inside hinside =>
    have hfeed : '\n' ∉ base := fun hmem =>
      absurd (hbase.isTight.space '\n' hmem (by decide)) (by decide)
    have hclosing : ']' ∉ inside := fun hmem => absurd (hinside ']' hmem) (by decide)
    rw [declare, splitExtents_append hbracket hfeed hbase.isTight.last hclosing]

/-- A name is attached to a type behind a character that can not belong to it, and without the name
the type is spelled as before. -/
theorem exists_attach_eq (hbase : IsBase base) (name : List Char) : ∃ front c,
    attach base name = front ++ c :: name ∧ (isBlank c = true ∨ isMark c = true) ∧
      normalize (front ++ [c]) = base := by
  obtain ⟨c, hlast⟩ := Option.isSome_iff_exists.1 (List.getLast?_isSome.2 hbase.ne_nil)
  cases hmark : isMark c with
  | true =>
    obtain ⟨front, rfl⟩ := List.getLast?_eq_some_iff.1 hlast
    refine ⟨front, c, ?_, .inr hmark, hbase.normal⟩
    rw [attach_of_isMark hlast hmark, List.append_assoc]
    rfl
  | false =>
    refine ⟨base, ' ', attach_of_not_isMark hlast hmark name, .inl rfl, ?_⟩
    have hcollapse : collapse (base ++ [' ']) = collapse base := by
      rw [collapse, words_append_of_blank (List.forall_mem_singleton.2 rfl), collapse]
    rw [Spelling.normalize, hcollapse]
    exact hbase.normal

/-- A base with a name behind it is code. -/
theorem isCode_attach (hbase : IsBase base) (hname : IsName name) : IsCode (attach base name) := by
  obtain ⟨c, hlast⟩ := Option.isSome_iff_exists.1 (List.getLast?_isSome.2 hbase.ne_nil)
  cases hmark : isMark c with
  | true =>
    rw [attach_of_isMark hlast hmark]
    exact hbase.isCode.append hname.isCode
  | false =>
    rw [attach_of_not_isMark hlast hmark]
    exact hbase.isCode.join hbase.ne_nil hname.ne_nil hname.isCode

/-- The declaration of a parameter is code. -/
theorem isCode_declare (hbase : IsBase base) (hextent : IsExtent extent) (hname : IsName name) :
    IsCode (declare (base ++ extent) name) := by
  rw [declare_eq hbase hextent]
  exact (isCode_attach hbase hname).append hextent.isCode

/-! ## Fragments -/

variable {declaration : List Char}

/-- A declaration without a default value is kept. -/
theorem IsCode.splitDefault_eq (h : IsCode declaration) :
    splitDefault declaration = (declaration, none) := by
  have hcut := cutDefault_append h.isQuote h.equals.encloses h.equals.ends none []
  rw [List.append_nil] at hcut
  rw [splitDefault, hcut]
  simp only [cutDefault, Option.map_none, h.toIsTight.trim_eq]

/-- A declaration is cut in front of its default value. -/
theorem IsCode.splitDefault_append (h : IsCode declaration) (value : List Char) :
    splitDefault (declaration ++ " = ".toList ++ value) = (declaration, some (trim value)) := by
  have hcut :=
    cutDefault_append h.isQuote h.equals.encloses h.equals.ends none (" = ".toList ++ value)
  have hsign (previous : Option Char) :
      cutDefault previous 0 (" = ".toList ++ value) = some ([' '], ' ' :: value) := by
    rfl
  have hvalue : trim (' ' :: value) = trim value := trim_cons_of_blank rfl value
  have hdeclaration : trim (declaration ++ [' ']) = declaration := by
    rw [trim_append_of_blank (List.forall_mem_singleton.2 rfl), h.toIsTight.trim_eq]
  rw [splitDefault, List.append_assoc, hcut, hsign]
  simp only [Option.map_some, hdeclaration, hvalue]

/-- A fragment with the declaration of a name is read as a parameter of that name and type. -/
theorem ofFragment_declare (hbase : IsBase base) (hextent : IsExtent extent) (hname : IsName name)
    {fragment : List Char} {default : Option (List Char)}
    (hfragment : splitDefault fragment = (declare (base ++ extent) name, default)) :
    ofFragment fragment = some (.named (String.ofList name) (String.ofList (base ++ extent))
      (default.map String.ofList)) := by
  obtain ⟨front, c, hattach, hc, hnormal⟩ := exists_attach_eq hbase name
  have hdeclare : declare (base ++ extent) name = front ++ c :: name ++ extent := by
    rw [declare_eq hbase hextent, hattach]
  have hne : front ++ c :: name ++ extent ≠ [] := by simp
  have hparts := parts?_declaration front hname.ne_nil hname.isWord hc hextent
  rw [ofFragment, hfragment, hdeclare]
  simp only [if_neg hne, hparts, hnormal]

/-- Code begins with no equals sign. -/
theorem IsCode.head?_ne (h : IsCode declaration) : declaration.head? ≠ some '=' := by
  intro hhead
  obtain ⟨rest, rfl⟩ := List.head?_eq_some_iff.1 hhead
  exact h.equals.encloses [] rest rfl rfl

/-- A text that stands for a parameter wherever it is put between commas. -/
structure IsFragment (parameter : Parameter) (text : List Char) : Prop where
  spaced : IsSpaced text
  head?_ne : text.head? ≠ some '='
  level : IsLevel ',' text
  read : ofFragment text = some parameter

/-- The parameters that can be read back.  The type of a named one may carry one extent, and its
default value has single spaces; a raw one is the text that is read as itself.  None of them has a
comma outside of brackets and quotes. -/
inductive IsReadable : Parameter → Prop
  | named {name type : String} {default : Option String} {base extent : List Char}
      (hname : IsName name.toList) (htype : type.toList = base ++ extent) (hbase : IsBase base)
      (hextent : IsExtent extent)
      (hdefault : ∀ d ∈ default, collapse d.toList = d.toList ∧ IsLevel ',' d.toList) :
      IsReadable (.named name type default)
  | raw {text : String} (hread : parseList text.toList = [.raw text])
      (hhead : text.toList.head? ≠ some '=') (hlevel : IsLevel ',' text.toList) :
      IsReadable (.raw text)

/-- The declaration of a parameter stands for it. -/
theorem isFragment_declare (hbase : IsBase base) (hextent : IsExtent extent) (hname : IsName name) :
    IsFragment (.named (String.ofList name) (String.ofList (base ++ extent)) none)
      (declare (base ++ extent) name) :=
  have hcode := isCode_declare hbase hextent hname
  { spaced := hcode.toIsSpaced
    head?_ne := hcode.head?_ne
    level := hcode.comma
    read := ofFragment_declare hbase hextent hname hcode.splitDefault_eq }

/-- The declaration of a parameter with a default value stands for it. -/
theorem isFragment_default (hbase : IsBase base) (hextent : IsExtent extent) (hname : IsName name)
    {value : List Char} (hvalue : IsTight value) (hlevel : IsLevel ',' value) :
    IsFragment (.named (String.ofList name) (String.ofList (base ++ extent))
        (some (String.ofList value)))
      (declare (base ++ extent) name ++ " = ".toList ++ value) := by
  have hcode := isCode_declare hbase hextent hname
  have hne : declare (base ++ extent) name ≠ [] := by
    obtain ⟨front, c, hattach, -⟩ := exists_attach_eq hbase name
    rw [declare_eq hbase hextent, hattach]
    simp
  -- the sign stands between spaces, and both sides are tight
  have hsign : IsTight (declare (base ++ extent) name ++ " =".toList) :=
    hcode.toIsTight.join hne (by decide)
      (isTight_of_visible (List.forall_mem_singleton.2 (by decide)))
  have hassign : IsLevel ',' " = ".toList := by decide
  refine ⟨?_, ?_, (hcode.comma.append hassign).append hlevel, ?_⟩
  · have hspaced := hsign.append_space (by simp) hvalue.toIsSpaced
    simpa using hspaced
  · obtain ⟨c, rest, hcons⟩ := List.exists_cons_of_ne_nil hne
    have hhead := hcode.head?_ne
    rw [hcons] at hhead ⊢
    exact hhead
  · have hsplit := hcode.splitDefault_append value
    rw [hvalue.trim_eq] at hsplit
    exact ofFragment_declare hbase hextent hname hsplit

/-- A raw text that is read as itself is one fragment. -/
theorem isFragment_raw {text : String} (hread : parseList text.toList = [.raw text])
    (hhead : text.toList.head? ≠ some '=') (hlevel : IsLevel ',' text.toList) :
    IsFragment (.raw text) text.toList := by
  have hparts : (splitTopLevel ',' (collapse text.toList)).filterMap ofFragment = [.raw text] := by
    rw [parseList] at hread
    split at hread
    · cases hread
    · exact hread
  obtain ⟨part, hpart, hraw⟩ : ∃ part ∈ splitTopLevel ',' (collapse text.toList),
      ofFragment part = some (.raw text) :=
    List.mem_filterMap.1 (hparts ▸ List.mem_singleton_self _)
  have htext : text.toList = trim part := by
    simp only [ofFragment] at hraw
    split at hraw
    · cases hraw
    · split at hraw
      · cases hraw
      · obtain rfl : String.ofList (trim part) = text := by simpa using hraw
        exact String.toList_ofList
  have hpiece : part <:+: collapse text.toList := by
    have hwhole := intercalate_splitFrom ',' .top (collapse text.toList)
    exact hwhole ▸ infix_intercalate hpart
  -- a part of a collapsed text keeps its single spaces
  have htight : IsTight text.toList :=
    htext ▸ (isTight_collapse text.toList).toIsSpaced.trim_of_infix hpiece
  rw [collapse_eq_self_iff.2 htight, splitTopLevel_of_encloses hlevel.encloses] at hparts
  refine ⟨htight.toIsSpaced, hhead, hlevel, ?_⟩
  obtain ⟨part, hmem, hread⟩ := List.mem_filterMap.1 (hparts ▸ List.mem_singleton_self _)
  rwa [List.mem_singleton.1 hmem] at hread

/-- What is printed of a readable parameter stands for it. -/
theorem IsReadable.isFragment {parameter : Parameter} (h : parameter.IsReadable) :
    IsFragment parameter parameter.print := by
  cases h with
  | @named name type default base extent hname htype hbase hextent hdefault =>
    have hnamed : String.ofList name.toList = name := String.ofList_toList
    have htyped : String.ofList (base ++ extent) = type := by rw [← htype, String.ofList_toList]
    cases default with
    | none =>
      have hfragment := isFragment_declare hbase hextent hname
      rwa [hnamed, htyped, ← htype] at hfragment
    | some value =>
      obtain ⟨hspaces, hlevel⟩ := hdefault value rfl
      have hvalue := collapse_eq_self_iff.1 hspaces
      have hfragment := isFragment_default hbase hextent hname hvalue hlevel
      rwa [hnamed, htyped, ← htype, String.ofList_toList] at hfragment
  | raw hread hhead hlevel => exact isFragment_raw hread hhead hlevel

/-! ## Lists -/

variable {ps : List Parameter} {text : List Char}

/-- The space behind a comma does not count. -/
theorem filterMap_split_space (h : text.head? ≠ some '=') :
    (splitTopLevel ',' (' ' :: text)).filterMap ofFragment =
      (splitTopLevel ',' text).filterMap ofFragment := by
  have hspace : splitTopLevel ',' (' ' :: text) = consPart ' ' (splitTopLevel ',' text) := rfl
  have hwhole : [','].intercalate (splitTopLevel ',' text) = text := intercalate_splitFrom _ _ _
  rw [hspace]
  cases hsplit : splitTopLevel ',' text with
  | nil => exact absurd hsplit (splitFrom_ne_nil _ _ _)
  | cons part parts =>
    have hpart : part.head? ≠ some '=' := by
      intro hhead
      obtain ⟨rest, rfl⟩ := List.head?_eq_some_iff.1 hhead
      rw [hsplit] at hwhole
      refine h ?_
      cases parts with
      | nil => rw [← hwhole]; rfl
      | cons _ _ => rw [← hwhole]; rfl
    rw [consPart, List.filterMap_cons, List.filterMap_cons, ofFragment_space hpart]

/-- The blanks behind a text stay behind its last part. -/
theorem exists_splitFrom_append_of_blank {tail : List Char} (h : ∀ c ∈ tail, isBlank c = true)
    (state : Nesting) (cs : List Char) : ∃ front last,
      splitFrom ',' state cs = front ++ [last] ∧
        splitFrom ',' state (cs ++ tail) = front ++ [last ++ tail] := by
  induction cs generalizing state with
  | nil =>
    have hcomma : ',' ∉ tail := fun hmem => absurd (h _ hmem) (by decide)
    have hencloses : Encloses ',' state tail := encloses_of_not_mem hcomma
    have hsplit := splitFrom_append hencloses []
    rw [List.append_nil] at hsplit
    refine ⟨[], [], rfl, ?_⟩
    rw [List.nil_append, hsplit, splitFrom, foldr_consPart, List.append_nil]
    rfl
  | cons c cs ih =>
    rw [List.cons_append, splitFrom, splitFrom]
    split
    · obtain ⟨front, last, hsplit, hblank⟩ := ih state
      exact ⟨[] :: front, last, by rw [hsplit]; rfl, by rw [hblank]; rfl⟩
    · obtain ⟨front, last, hsplit, hblank⟩ := ih (state.next c)
      rw [hsplit, hblank]
      cases front with
      | nil => exact ⟨[], c :: last, rfl, rfl⟩
      | cons part front => exact ⟨(c :: part) :: front, last, rfl, rfl⟩

/-- Blanks at the end of a list make no parameter. -/
theorem filterMap_split_trimEnd (text : List Char) :
    (splitTopLevel ',' (trimEnd text)).filterMap ofFragment =
      (splitTopLevel ',' text).filterMap ofFragment := by
  obtain ⟨tail, htext, htail⟩ := dropEndWhile_append isBlank text
  obtain ⟨front, last, hsplit, hblank⟩ :=
    exists_splitFrom_append_of_blank htail .top (trimEnd text)
  have hwhole : splitTopLevel ',' text = front ++ [last ++ tail] := by
    rw [← hblank]
    exact congrArg _ htext
  rw [hwhole, splitTopLevel, hsplit, List.filterMap_append, List.filterMap_append,
    List.filterMap_cons, List.filterMap_cons, ofFragment_append_of_blank htail]

theorem printList_cons_cons (p q : Parameter) (ps : List Parameter) :
    printList (p :: q :: ps) = p.print ++ ',' :: ' ' :: printList (q :: ps) := by
  simp [printList, List.intercalate_cons_cons]

/-- A printed list has single spaces, and none in front. -/
theorem isSpaced_printList (h : ∀ p ∈ ps, IsFragment p p.print) : IsSpaced (printList ps) := by
  induction ps with
  | nil => exact isTight_nil.toIsSpaced
  | cons p ps ih =>
    obtain ⟨hp, hps⟩ := List.forall_mem_cons.1 h
    cases ps with
    | nil => simpa [printList] using hp.spaced
    | cons q ps =>
      have hcomma : IsTight (p.print ++ [',']) := hp.spaced.concat (by decide)
      have hspaced := hcomma.append_space (by simp) (ih hps)
      rw [printList_cons_cons]
      simpa using hspaced

/-- A printed list begins with no equals sign. -/
theorem head?_printList (h : ∀ p ∈ ps, IsFragment p p.print) :
    (printList ps).head? ≠ some '=' := by
  cases ps with
  | nil => simp
  | cons p ps =>
    have hp := (List.forall_mem_cons.1 h).1.head?_ne
    cases ps with
    | nil => simpa [printList] using hp
    | cons q ps =>
      rw [printList_cons_cons]
      cases hprint : p.print with
      | nil => simp
      | cons c rest =>
        rw [hprint] at hp
        exact hp

/-- The parts of a printed list are read as its parameters. -/
theorem filterMap_split_printList (hne : ps ≠ []) (h : ∀ p ∈ ps, IsFragment p p.print) :
    (splitTopLevel ',' (printList ps)).filterMap ofFragment = ps := by
  induction ps with
  | nil => exact absurd rfl hne
  | cons p ps ih =>
    obtain ⟨hp, hps⟩ := List.forall_mem_cons.1 h
    cases ps with
    | nil =>
      have hprint : printList [p] = p.print := by simp [printList]
      rw [hprint, splitTopLevel_of_encloses hp.level.encloses, List.filterMap_cons, hp.read]
      rfl
    | cons q ps =>
      rw [printList_cons_cons, splitTopLevel_append (by decide) hp.level, List.filterMap_cons,
        hp.read, filterMap_split_space (head?_printList hps), ih (List.cons_ne_nil q ps) hps]

/-- **Reading a printed parameter list.**  A list of parameters that can each be read back is read
from its printed text as it is. -/
theorem parseList_printList (h : ∀ p ∈ ps, p.IsReadable) : parseList (printList ps) = ps := by
  by_cases hne : ps = []
  · rw [hne]
    rfl
  have hfragments : ∀ p ∈ ps, IsFragment p p.print := fun p hp => (h p hp).isFragment
  have hread : (splitTopLevel ',' (collapse (printList ps))).filterMap ofFragment = ps := by
    rw [(isSpaced_printList hfragments).collapse_eq, filterMap_split_trimEnd,
      filterMap_split_printList hne hfragments]
  rw [parseList]
  split
  · -- Neither an empty text nor `void` is split into readable parameters.
    rename_i hempty
    rcases Bool.or_eq_true_iff.1 hempty with hempty | hvoid
    · rw [of_decide_eq_true hempty] at hread
      exact absurd hread.symm hne
    · have hparts : (splitTopLevel ',' "void".toList).filterMap ofFragment = [.raw "void"] := by
        decide
      rw [of_decide_eq_true hvoid, hparts] at hread
      cases h (.raw "void") (hread ▸ List.mem_singleton_self _) with
      | raw hself => exact absurd hself (by decide)
  · exact hread

/-- A table of strings, a map by reference with a default value, a quoted comma and an ellipsis. -/
def mixedParameters : List Parameter :=
  [.named "argv" "char *[N + 1]" none,
    .named "table" "std::map<int, int> &" (some "first(a, b == c)"),
    .named "separator" "const char *" (some "\",\""), .raw "..."]

/-- A list with raw and named parameters, extents and default values. -/
theorem parseList_printList_mixed :
    (∀ p ∈ mixedParameters, p.IsReadable) ∧
      parseList (printList mixedParameters) = mixedParameters := by
  have hargv : IsReadable (.named "argv" "char *[N + 1]" none) :=
    .named ⟨by decide, List.all_eq_true.1 (by decide)⟩
      (show _ = "char *".toList ++ "[N + 1]".toList from rfl)
      ⟨by decide, by decide, List.all_iff_forall_prop.1 (by decide), by decide⟩
      (@IsExtent.one "N + 1".toList (List.all_eq_true.1 (by decide)) (by decide)) (by decide)
  have htable : IsReadable
      (.named "table" "std::map<int, int> &" (some "first(a, b == c)")) :=
    .named ⟨by decide, List.all_eq_true.1 (by decide)⟩ (List.append_nil _).symm
      ⟨by decide, by decide, List.all_iff_forall_prop.1 (by decide), by decide⟩ .none (by decide)
  have hseparator : IsReadable (.named "separator" "const char *" (some "\",\"")) :=
    .named ⟨by decide, List.all_eq_true.1 (by decide)⟩ (List.append_nil _).symm
      ⟨by decide, by decide, List.all_iff_forall_prop.1 (by decide), by decide⟩ .none (by decide)
  have hellipsis : IsReadable (.raw "...") := .raw (by decide) (by decide) (by decide)
  have hreadable : ∀ p ∈ mixedParameters, p.IsReadable := by
    simp [mixedParameters, hargv, htable, hseparator, hellipsis]
  exact ⟨hreadable, parseList_printList hreadable⟩

end Parameter

end HeaderApi
