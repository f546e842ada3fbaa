import HeaderApi.Proofs.DocumentedEntries
import HeaderApi.Proofs.HeldEntries
import HeaderApi.Proofs.LexicalScan
import HeaderApi.Proofs.StatementReaders
import HeaderApi.Proofs.TightTexts

/-!
# Printed definitions

A definition that has been read is printed on one line, and read back from it with its name, its
parameters and its value, when the value is on one line, its code is all of it, and it does not end
in a backslash.
-/

namespace HeaderApi

open Text

/-- No piece has the mark in it. -/
theorem Text.not_mem_of_mem_pieces {mark : Char} {cs piece : List Char}
    (h : piece ∈ pieces mark cs) : mark ∉ piece := by
  induction cs generalizing piece with
  | nil =>
    rw [List.mem_singleton.1 h]
    exact List.not_mem_nil
  | cons c cs ih =>
    by_cases hc : c = mark
    · subst hc
      rw [pieces_cons_self] at h
      rcases List.mem_cons.1 h with rfl | h
      · exact List.not_mem_nil
      · exact ih h
    · obtain ⟨first, others, hcs⟩ := exists_pieces_eq_cons mark cs
      rw [hcs] at ih
      rw [pieces_cons_of_ne hc hcs] at h
      rcases List.mem_cons.1 h with rfl | h
      · exact List.not_mem_cons_of_ne_of_not_mem (Ne.symm hc) (ih List.mem_cons_self)
      · exact ih (List.mem_cons_of_mem first h)

/-! ## Bare names -/

namespace Parameter

variable {text : List Char} {names : List (List Char)}

/-- The parameter that a piece of a list of bare names stands for. -/
def bareName (name : List Char) : Parameter := .named (String.ofList name) "" none

/-- A name that stands alone between the commas of a list. -/
structure IsBareName (name : List Char) : Prop where
  ne_nil : name ≠ []
  trimmed : trim name = name
  comma : ',' ∉ name

theorem bareNames_append (first later : List Char) :
    bareNames (first ++ ',' :: later) = bareNames first ++ bareNames later := by
  unfold bareNames
  rw [pieces_append, List.filterMap_append]

/-- A blank in front of a list makes no name. -/
theorem bareNames_cons_of_blank {c : Char} (hblank : isBlank c = true) (hc : c ≠ ',') :
    bareNames (c :: text) = bareNames text := by
  obtain ⟨piece, others, hpieces⟩ := exists_pieces_eq_cons ',' text
  unfold bareNames
  rw [pieces_cons_of_ne hc hpieces, hpieces, List.filterMap_cons, List.filterMap_cons,
    trim_cons_of_blank hblank]

/-- A name alone is a list of one name. -/
theorem IsBareName.bareNames {name : List Char} (h : IsBareName name) :
    bareNames name = [bareName name] := by
  unfold Parameter.bareNames
  rw [pieces_of_not_mem h.comma]
  simp only [List.filterMap_cons, h.trimmed, if_neg h.ne_nil, List.filterMap_nil]
  rfl

/-- Bare names are read back from their list. -/
theorem bareNames_intercalate (h : ∀ name ∈ names, IsBareName name) :
    bareNames (", ".toList.intercalate names) = names.map bareName := by
  induction names with
  | nil => rfl
  | cons first names ih =>
    obtain ⟨hfirst, hnames⟩ := List.forall_mem_cons.1 h
    cases names with
    | nil => rw [List.intercalate_singleton, hfirst.bareNames, List.map_singleton]
    | cons second names =>
      have hlist : ", ".toList.intercalate (first :: second :: names) =
          first ++ ',' :: ' ' :: ", ".toList.intercalate (second :: names) := by
        rw [List.intercalate_cons_cons, List.append_assoc]
        rfl
      rw [hlist, bareNames_append, bareNames_cons_of_blank (by decide) (by decide), ih hnames,
        hfirst.bareNames, List.singleton_append, ← List.map_cons]

theorem print_bareName (name : List Char) : (bareName name).print = name := by
  show Declarator.declare [] (String.ofList name).toList = name
  rw [Declarator.declare_nil, String.toList_ofList]

theorem filterMap_bareName (pieces : List (List Char)) :
    (pieces.filterMap fun piece =>
      let name := trim piece
      if name = [] then none else some (.named (String.ofList name) "" none)) =
      ((pieces.map trim).filter (· ≠ [])).map bareName := by
  induction pieces with
  | nil => rfl
  | cons piece pieces ih =>
    rw [List.filterMap_cons, ih, List.map_cons]
    by_cases hpiece : trim piece = []
    · rw [List.filter_cons_of_neg (by simpa using hpiece)]
      simp only [if_pos hpiece]
    · rw [List.filter_cons_of_pos (by simpa using hpiece), List.map_cons]
      simp only [if_neg hpiece]
      rfl

/-- What a list of bare names consists of. -/
theorem exists_bareNames_eq (text : List Char) : ∃ names : List (List Char),
    bareNames text = names.map bareName ∧ (∀ name ∈ names, IsBareName name) ∧
      ∀ name ∈ names, ∀ c ∈ name, c ∈ text := by
  have hpiece : ∀ name ∈ ((pieces ',' text).map trim).filter (· ≠ []),
      ∃ piece ∈ pieces ',' text, trim piece = name ∧ name ≠ [] := by
    intro name hname
    obtain ⟨hmem, hne⟩ := List.mem_filter.1 hname
    obtain ⟨piece, hpiece, htrim⟩ := List.mem_map.1 hmem
    exact ⟨piece, hpiece, htrim, of_decide_eq_true hne⟩
  refine ⟨((pieces ',' text).map trim).filter (· ≠ []), filterMap_bareName _, ?_, ?_⟩
  · intro name hname
    obtain ⟨piece, hmem, rfl, hne⟩ := hpiece name hname
    exact ⟨hne, trim_trim piece, fun hcomma => not_mem_of_mem_pieces hmem (mem_of_mem_trim hcomma)⟩
  · intro name hname c hc
    obtain ⟨piece, hmem, rfl, -⟩ := hpiece name hname
    exact mem_of_mem_pieces hmem (mem_of_mem_trim hc)

/-- Bare names are printed with commas and blanks between them. -/
theorem printList_bareNames (names : List (List Char)) :
    printList (names.map bareName) = ", ".toList.intercalate names := by
  have hprint : print ∘ bareName = id := funext print_bareName
  rw [printList, List.map_map, hprint, List.map_id]

/-- A list of bare names has a visible character at both ends. -/
theorem trim_intercalate (h : ∀ name ∈ names, IsBareName name) :
    trim (", ".toList.intercalate names) = ", ".toList.intercalate names := by
  apply trim_eq_self
  · cases names with
    | nil => exact nofun
    | cons first names =>
      have hfirst := h first List.mem_cons_self
      -- the first character is that of the first name
      have hhead : (", ".toList.intercalate (first :: names)).head? = first.head? := by
        cases names with
        | nil => rw [List.intercalate_singleton]
        | cons second names =>
          rw [List.intercalate_cons_cons, List.append_assoc,
            List.head?_append_of_ne_nil _ hfirst.ne_nil]
      rw [hhead, ← hfirst.trimmed]
      exact head?_trim first
  · obtain rfl | ⟨front, last, rfl⟩ := List.eq_nil_or_concat' names
    · exact nofun
    · have hlast := h last (List.mem_append_right front List.mem_cons_self)
      -- and the last one that of the last name
      have hend : (", ".toList.intercalate (front ++ [last])).getLast? = last.getLast? := by
        by_cases hfront : front = []
        · rw [hfront, List.nil_append, List.intercalate_singleton]
        · rw [intercalate_concat last hfront, List.getLast?_append_of_ne_nil _ hlast.ne_nil]
      rw [hend, ← hlast.trimmed]
      exact getLast?_trim last

/-- A character of a printed list is one of a separator or of a name. -/
theorem mem_intercalate {c : Char} (h : c ∈ ", ".toList.intercalate names) :
    c ∈ ", ".toList ∨ ∃ name ∈ names, c ∈ name := by
  induction names with
  | nil => cases h
  | cons first names ih =>
    cases names with
    | nil =>
      rw [List.intercalate_singleton] at h
      exact .inr ⟨first, List.mem_cons_self, h⟩
    | cons second names =>
      rw [List.intercalate_cons_cons, List.append_assoc, List.mem_append, List.mem_append] at h
      rcases h with h | h | h
      · exact .inr ⟨first, List.mem_cons_self, h⟩
      · exact .inl h
      · refine (ih h).imp_right ?_
        rintro ⟨name, hname, hc⟩
        exact ⟨name, List.mem_cons_of_mem first hname, hc⟩

end Parameter

/-! ## What a definition says -/

/-- A definition as a directive says it: the name is a word that does not end in an underscore, the
parameters are bare names without a parenthesis, and a value is trimmed. -/
structure Signature.IsDefinition (s : Signature) : Prop where
  kind : s.kind = .definition
  name_ne_nil : s.name.toList ≠ []
  isWord : ∀ c ∈ s.name.toList, isWord c = true
  name_end : endsWith ['_'] s.name.toList = false
  parameters : ∀ ps ∈ s.parameters, ∃ names : List (List Char),
    ps = names.map Parameter.bareName ∧
      ∀ name ∈ names, Parameter.IsBareName name ∧ ')' ∉ name
  value : ∀ value ∈ s.value, value.toList ≠ [] ∧ trim value.toList = value.toList

namespace Directive

variable {line : Line} {rest left : List Line}

/-- The parameters of a definition have no closing parenthesis in them. -/
theorem not_mem_splitParameters {cs parameters value : List Char}
    (h : splitParameters cs = (some parameters, value)) : ')' ∉ parameters := by
  unfold splitParameters at h
  split at h
  · split at h
    · rename_i hcut
      cases h
      exact (cutAt_eq_some_iff.1 hcut).2
    · cases h
  · cases h

/-- A definition has a name of word characters, and parameters without a closing parenthesis. -/
theorem definition?_ensures {head : DefinitionHead} (h : definition? line = some head) :
    head.name ≠ [] ∧ (∀ c ∈ head.name, isWord c = true) ∧
      ∀ text ∈ head.parameters, ')' ∉ text := by
  simp only [definition?, Option.bind_eq_bind, Option.bind_eq_some_iff] at h
  obtain ⟨tail, -, text, -, h⟩ := h
  split at h
  · cases h
  · rename_i hnone
    cases h
    refine ⟨?_, fun c hc => List.all_eq_true.1 List.all_takeWhile c hc, ?_⟩
    · intro hname
      exact hnone (Bool.or_eq_true_iff.2 (.inl (decide_eq_true hname)))
    · intro parameters hparameters
      exact not_mem_splitParameters (Prod.ext hparameters rfl)

/-- A value that is kept is not empty and has no blanks around it. -/
theorem trimmed_of_mem {text : List Char} {value : String}
    (h : value ∈ if trim text = [] then none else some (String.ofList (trim text))) :
    value.toList ≠ [] ∧ trim value.toList = value.toList := by
  split at h
  · cases h
  · rename_i hne
    cases h
    rw [String.toList_ofList]
    exact ⟨hne, trim_trim text⟩

/-- What is known of a definition that has been read. -/
theorem isDefinition_of_read {name : String} {parameters doc value : Option String} {s : Signature}
    (h : read line rest = (.definition name parameters doc value, left))
    (hs : Header.signature? (.definition name parameters doc value) = some s) :
    s.IsDefinition := by
  rw [read] at h
  dsimp only at h
  split at h
  · rename_i head hhead
    obtain ⟨hne, hword, hparenthesis⟩ := definition?_ensures hhead
    split at h
    · cases h
    · rename_i hguard
      cases hs
      cases h
      refine ⟨rfl, ?_, ?_, ?_, ?_, ?_⟩
      · simpa using hne
      · simpa using hword
      · simpa using hguard
      · rintro _ hps
        obtain ⟨text, htext, rfl⟩ := Option.map_eq_some_iff.1 hps
        obtain ⟨text', htext', rfl⟩ := Option.map_eq_some_iff.1 htext
        obtain ⟨names, hnames, hbare, hmem⟩ :=
          Parameter.exists_bareNames_eq (String.ofList (trim text')).toList
        refine ⟨names, hnames, fun name hname => ⟨hbare name hname, fun hc => ?_⟩⟩
        have htrim := hmem name hname ')' hc
        rw [String.toList_ofList] at htrim
        exact hparenthesis text' htext' (mem_of_mem_trim htrim)
      · intro value hvalue
        exact trimmed_of_mem hvalue
  · cases h

end Directive

/-! ## Values -/

/-- A value that is read as it is printed: its code is all of it, and it does not end in a
backslash. -/
structure Source.IsPlainValue (value : List Char) : Prop where
  code : code value = value
  last : value.getLast? ≠ some '\\'

/-- A doc comment does not begin at a character that stays code. -/
theorem Comment.inlineHere?_of_keeps {c : Char} {rest : List Char}
    (h : Source.Lexing.code.keeps c rest = true) : inlineHere? (c :: rest) = none := by
  have hslash : c = '/' → rest.head? ≠ some '/' ∧ rest.head? ≠ some '*' := by
    rintro rfl
    obtain ⟨hslash, hstar⟩ := Bool.and_eq_true_iff.1 h
    exact ⟨of_decide_eq_true hslash, of_decide_eq_true hstar⟩
  have hafter (mark : Char) (opening : List Char) (hmark : mark = '*' ∨ mark = '/') :
      after? ('/' :: mark :: opening) (c :: rest) = none := by
    rw [after?_eq_none_iff]
    refine Bool.eq_false_iff.2 fun hstarts => ?_
    obtain ⟨tail, htail⟩ := startsWith_iff.1 hstarts
    obtain ⟨rfl, rfl⟩ := List.cons.inj htail
    obtain ⟨hne, hne'⟩ := hslash rfl
    rcases hmark with rfl | rfl
    · exact hne' rfl
    · exact hne rfl
  unfold inlineHere?
  rw [show after? "/**<".toList (c :: rest) = none from hafter '*' ['*', '<'] (.inl rfl),
    show after? "///<".toList (c :: rest) = none from hafter '/' ['/', '<'] (.inr rfl)]

/-- Text that is its own code has no doc comment in it. -/
theorem Comment.inline?_of_code {cs : List Char} (h : Source.Lexing.code.output cs = cs) :
    inline? cs = none := by
  induction cs with
  | nil => rfl
  | cons c cs ih =>
    obtain ⟨hkept, hcs⟩ := Source.Lexing.keeps_of_output h
    rw [inline?, inlineHere?_of_keeps hkept]
    exact ih hcs

/-- A text that is all code has no doc behind it. -/
theorem Comment.inlineDoc?_of_code {cs : List Char} (h : Source.code cs = cs) :
    inlineDoc? cs = none := by
  rw [Source.code_eq_output] at h
  rw [inlineDoc?, inline?_of_code h]
  rfl

/-- A text ends with a character that is its last one. -/
theorem Text.endsWith_singleton_iff {c : Char} {cs : List Char} :
    endsWith [c] cs = true ↔ cs.getLast? = some c := by
  rw [endsWith, startsWith_iff, ← List.head?_reverse, List.reverse_singleton]
  constructor
  · rintro ⟨rest, hrest⟩
    rw [hrest]
    rfl
  · intro hhead
    exact List.head?_eq_some_iff.1 hhead

/-- Nothing is dropped from a text whose last character is to stay. -/
theorem Text.dropEndWhile_eq_self {p : Char → Bool} {cs : List Char}
    (h : ∀ c ∈ cs.getLast?, p c = false) : dropEndWhile p cs = cs := by
  obtain ⟨tail, hcs, htail⟩ := dropEndWhile_append p cs
  obtain rfl | ⟨front, last, rfl⟩ := List.eq_nil_or_concat' tail
  · rw [List.append_nil] at hcs
    exact hcs.symm
  · have hlast : cs.getLast? = some last := by
      rw [hcs, ← List.append_assoc, List.getLast?_concat]
    have hdropped := htail last (List.mem_append_right front List.mem_cons_self)
    rw [h last hlast] at hdropped
    cases hdropped

/-! ## Reading a printed definition -/

namespace Signature

variable {s : Signature}

/-- The parameters of a definition as they are printed behind its name. -/
def definitionParameters (s : Signature) : List Char :=
  match s.parameters with
  | some ps => '(' :: Parameter.printList ps ++ [')']
  | none => []

/-- The value of a definition as it is printed at the end of its line. -/
def definitionValue (s : Signature) : List Char :=
  match s.value with
  | some value => if value = "" then [] else ' ' :: value.toList
  | none => []

/-- A value is printed behind a blank. -/
theorem definitionValue_cases (s : Signature) :
    s.definitionValue = [] ∨ ∃ value, s.definitionValue = ' ' :: value := by
  unfold definitionValue
  split
  · split
    · exact .inl rfl
    · exact .inr ⟨_, rfl⟩
  · exact .inl rfl

theorem definitionLine_eq (s : Signature) : s.definitionLine =
    "#define ".toList ++ s.name.toList ++ s.definitionParameters ++ s.definitionValue := rfl

/-- The last character of a printed definition is that of its value, the parenthesis behind its
parameters, or the last one of its name. -/
theorem getLast?_definitionLine (h : s.IsDefinition)
    (hvalue : ∀ value ∈ s.value, Source.IsPlainValue value.toList) :
    ∀ c ∈ s.definitionLine.getLast?, isBlank c = false ∧ c ≠ '\\' := by
  intro c hc
  rw [definitionLine_eq] at hc
  cases hsome : s.value with
  | some value =>
    -- the value is trimmed and does not end in a backslash
    obtain ⟨hne, htrim⟩ := h.value value hsome
    have hlast : s.definitionValue.getLast? = value.toList.getLast? := by
      rw [definitionValue, hsome]
      dsimp only
      rw [if_neg (by simpa using hne), ← List.singleton_append,
        List.getLast?_append_of_ne_nil _ hne]
    have hnil : s.definitionValue ≠ [] := by
      intro hnil
      rw [hnil, eq_comm, List.getLast?_nil, List.getLast?_eq_none_iff] at hlast
      exact hne hlast
    rw [List.getLast?_append_of_ne_nil _ hnil, hlast] at hc
    refine ⟨getLast?_trim value.toList c (htrim.symm ▸ hc), ?_⟩
    rintro rfl
    exact (hvalue value hsome).last hc
  | none =>
    have hnil : s.definitionValue = [] := by rw [definitionValue, hsome]
    rw [hnil, List.append_nil] at hc
    cases hps : s.parameters with
    | some ps =>
      have hparameters : s.definitionParameters = '(' :: Parameter.printList ps ++ [')'] := by
        rw [definitionParameters, hps]
      rw [hparameters, ← List.append_assoc, List.getLast?_concat] at hc
      cases hc
      decide
    | none =>
      have hparameters : s.definitionParameters = [] := by rw [definitionParameters, hps]
      rw [hparameters, List.append_nil, List.getLast?_append_of_ne_nil _ h.name_ne_nil] at hc
      have hword := h.isWord c (List.mem_of_mem_getLast? hc)
      refine ⟨Spelling.isBlank_of_isWord hword, ?_⟩
      rintro rfl
      exact absurd hword (by decide)

/-- A printed definition has a visible character at both ends. -/
theorem trim_definitionLine (h : s.IsDefinition)
    (hvalue : ∀ value ∈ s.value, Source.IsPlainValue value.toList) :
    trim s.definitionLine = s.definitionLine := by
  apply trim_eq_self
  · rintro _ ⟨⟩
    decide
  · intro c hc
    exact (getLast?_definitionLine h hvalue c hc).1

end Signature

namespace Directive

variable {s : Signature}

/-- Behind the name of a printed definition stand its parameters and its value. -/
theorem splitParameters_printed (h : s.IsDefinition) :
    splitParameters (s.definitionParameters ++ s.definitionValue) =
      (s.parameters.map Parameter.printList, s.definitionValue) := by
  cases hps : s.parameters with
  | none =>
    have hnone : s.definitionParameters = [] := by rw [Signature.definitionParameters, hps]
    rw [hnone, List.nil_append]
    obtain hvalue | ⟨value, hvalue⟩ := s.definitionValue_cases
    · rw [hvalue]
      rfl
    · rw [hvalue]
      rfl
  | some ps =>
    have hsome : s.definitionParameters = '(' :: Parameter.printList ps ++ [')'] := by
      rw [Signature.definitionParameters, hps]
    rw [hsome]
    obtain ⟨names, rfl, hnames⟩ := h.parameters ps hps
    -- the first closing parenthesis is the printed one, for no name holds one
    have hparenthesis : ')' ∉ Parameter.printList (names.map Parameter.bareName) := by
      rw [Parameter.printList_bareNames]
      intro hmem
      rcases Parameter.mem_intercalate hmem with hseparator | ⟨name, hname, hc⟩
      · exact absurd hseparator (by decide)
      · exact (hnames name hname).2 hc
    have hcut : cutAt ')' (Parameter.printList (names.map Parameter.bareName) ++
        ')' :: s.definitionValue) =
        some (Parameter.printList (names.map Parameter.bareName), s.definitionValue) :=
      cutAt_eq_some_iff.2 ⟨rfl, hparenthesis⟩
    simp only [List.cons_append, List.append_assoc, List.nil_append, splitParameters, hcut,
      Option.map_some]

/-- No word character is printed directly behind the name. -/
theorem isWord_head?_printed (s : Signature) :
    ∀ c ∈ (s.definitionParameters ++ s.definitionValue).head?, isWord c = false := by
  unfold Signature.definitionParameters
  split
  · rintro _ ⟨⟩
    decide
  · rw [List.nil_append]
    obtain hvalue | ⟨value, hvalue⟩ := s.definitionValue_cases
    · rw [hvalue]
      exact nofun
    · rw [hvalue]
      rintro _ ⟨⟩
      decide

/-- The printed line of a definition is read with the same name, parameters and value. -/
theorem definition?_definitionLine (h : s.IsDefinition) (hline : IsUnbroken s.definitionLine) :
    definition? s.definitionLine =
      some ⟨s.name.toList, s.parameters.map Parameter.printList, s.definitionValue⟩ := by
  have hkeyword : keyword? "define".toList s.definitionLine =
      some (' ' :: (s.name.toList ++ (s.definitionParameters ++ s.definitionValue))) := by
    rw [Signature.definitionLine_eq, List.append_assoc, List.append_assoc]
    rfl
  have htext : afterBlanks?
      (' ' :: (s.name.toList ++ (s.definitionParameters ++ s.definitionValue))) =
      some (s.name.toList ++ (s.definitionParameters ++ s.definitionValue)) := by
    rw [afterBlanks?, if_pos (by decide), trimStart_append h.name_ne_nil
      (fun c hc => Spelling.isBlank_of_isWord (h.isWord c hc))]
  have hvalue : s.definitionValue.contains '\n' = false := by
    rw [Signature.definitionLine_eq] at hline
    have hunbroken : IsUnbroken s.definitionValue := (List.forall_mem_append.1 hline).2
    simpa using hunbroken.newline_not_mem
  simp only [definition?, hkeyword, htext, Option.bind_eq_bind, Option.bind_some,
    takeWhile_append_of_head h.isWord (isWord_head?_printed s),
    dropWhile_append_of_head h.isWord (isWord_head?_printed s), splitParameters_printed h, hvalue]
  exact if_neg (by simpa using h.name_ne_nil)

/-- A plain value is printed and read without a backslash. -/
theorem withoutBackslash_definitionValue (h : s.IsDefinition)
    (hvalue : ∀ value ∈ s.value, Source.IsPlainValue value.toList) :
    withoutBackslash s.definitionValue = (s.value.getD "").toList := by
  unfold Signature.definitionValue
  cases hsome : s.value with
  | none => rfl
  | some value =>
    obtain ⟨hne, htrim⟩ := h.value value hsome
    have hkept : dropEndWhile (· = '\\') (' ' :: value.toList) = ' ' :: value.toList := by
      apply dropEndWhile_eq_self
      intro c hc
      rw [← List.singleton_append, List.getLast?_append_of_ne_nil _ hne] at hc
      refine decide_eq_false ?_
      rintro rfl
      exact (hvalue value hsome).last hc
    dsimp only [Option.getD_some]
    rw [if_neg (by simpa using hne), withoutBackslash, hkept, trim_cons_of_blank (by decide), htrim]

/-- **Reading a printed definition.** -/
theorem read_definitionLine (h : s.IsDefinition)
    (hvalue : ∀ value ∈ s.value, Source.IsPlainValue value.toList)
    (hline : IsUnbroken s.definitionLine) (rest : List Line) :
    read s.definitionLine rest =
      (.definition s.name
        (s.parameters.map fun ps => String.ofList (trim (Parameter.printList ps))) none s.value,
        rest) := by
  -- the line goes on nowhere, so the definition has one line
  have hend : endsWith ['\\'] s.definitionLine = false := by
    refine Bool.eq_false_iff.2 fun hend => ?_
    exact (s.getLast?_definitionLine h hvalue '\\' (endsWith_singleton_iff.1 hend)).2 rfl
  have hcontinuation : continuation s.definitionLine rest = ([], rest) := by
    cases rest with
    | nil => rfl
    | cons raw rest => rw [continuation, if_neg (by rw [hend]; exact Bool.false_ne_true)]
  have hcode : Source.code (s.value.getD "").toList = (s.value.getD "").toList := by
    cases hsome : s.value with
    | none => rfl
    | some value => exact (hvalue value hsome).code
  have hbare : (if trim (s.value.getD "").toList = [] then none
      else some (String.ofList (trim (s.value.getD "").toList))) = s.value := by
    cases hsome : s.value with
    | none => rfl
    | some value =>
      obtain ⟨hne, htrim⟩ := h.value value hsome
      rw [Option.getD_some, htrim, if_neg hne, String.ofList_toList]
  have hparameters : (s.parameters.map Parameter.printList).map (String.ofList ∘ trim) =
      s.parameters.map fun ps => String.ofList (trim (Parameter.printList ps)) := Option.map_map ..
  rw [read, hcontinuation]
  simp only [definition?_definitionLine h hline, h.name_end, List.map_cons, List.map_nil,
    joinLines_singleton, withoutBackslash_definitionValue h hvalue,
    Comment.inlineDoc?_of_code hcode, Option.isSome_none, Bool.false_eq_true, if_false, hcode,
    hbare, hparameters, String.ofList_toList, Option.map_none]

end Directive

/-! ## The tokens of a printed definition -/

/-- The line of a template in front of a declaration. -/
def templateLine (ps : List Parameter) : Line :=
  "template<".toList ++ Parameter.printList ps ++ ['>']

/-- Whether a printed template ends at the end of its line. -/
def IsClosedTemplate (ps : List Parameter) : Prop :=
  Source.findClosing '<' '>' 1 (Parameter.printList ps ++ ['>']) =
    .found (Parameter.printList ps) []

/-- A definition is printed on one line, behind the line of its template. -/
theorem Entry.lines_definition {e : Entry} (hkind : e.kind = .definition) :
    Entry.lines [] { e with doc := "" } =
      (e.template.map templateLine).toList ++ [e.definitionLine] := by
  obtain ⟨s, members⟩ := e
  have hkind : s.kind = .definition := hkind
  have hdoc : docLines [] "" = [] := if_pos rfl
  have hlines (inner : List Line) :
      Signature.frontLines [] { s with doc := "" } ++
        Signature.declarationLines [] { s with doc := "" } inner =
      (s.template.map templateLine).toList ++ [s.definitionLine] := by
    rw [Signature.frontLines, hdoc, List.nil_append, Signature.declarationLines, hkind]
    cases s.template with
    | none => rfl
    | some ps => rfl
  cases members with
  | none => exact hlines []
  | some members => exact hlines _

namespace Token

variable {mode : Mode} {s : Signature} {ps : List Parameter} {number : Int} {scopes : List Scope}

/-- The statement that a printed definition is read as. -/
def definitionStatement (s : Signature) : Statement :=
  .definition s.name (s.parameters.map fun ps => String.ofList (trim (Parameter.printList ps))) none
    s.value

/-- The printed line of a definition is read as its statement. -/
theorem readStatement_definitionLine (h : s.IsDefinition)
    (hvalue : ∀ value ∈ s.value, Source.IsPlainValue value.toList)
    (hline : IsUnbroken s.definitionLine) (rest : List Line) :
    readStatement mode s.definitionLine number scopes rest =
      .ok { statement := definitionStatement s, scopes, rest } := by
  have hmarker : Comment.isForwardMarker s.definitionLine = false := rfl
  have hpragma : Directive.isImplementation s.definitionLine = false := rfl
  have hcomment : startsWith "//".toList s.definitionLine = false := rfl
  have hblock : startsWith "/*".toList s.definitionLine = false := rfl
  have hmark : startsWith ['#'] s.definitionLine = true := rfl
  rw [readStatement]
  simp only [s.trim_definitionLine h hvalue, hmarker, hpragma, hcomment, hblock, hmark,
    Directive.read_definitionLine h hvalue hline, Bool.false_eq_true, if_false, if_true]
  rfl

/-- No blanks stand around the line of a template. -/
theorem trim_templateLine (ps : List Parameter) : trim (templateLine ps) = templateLine ps := by
  have hlast : (templateLine ps).getLast? = some '>' := List.getLast?_concat
  apply trim_eq_self
  · rintro _ ⟨⟩
    decide
  · rw [hlast]
    rintro _ ⟨⟩
    decide

/-- The printed line of a template is read as the template. -/
theorem readStatement_templateLine (hclosed : IsClosedTemplate ps) (rest : List Line) :
    readStatement {} (templateLine ps) number scopes rest =
      .ok {
        statement := .template (String.ofList (trim (Parameter.printList ps))), scopes, rest } := by
  have hignored : startsWithAny ({} : Mode).ignored (templateLine ps) = false := rfl
  have hlabel : isAccessLabel (templateLine ps) = false := rfl
  have hlinkage : isLinkage (templateLine ps) = false := rfl
  have hend : startsWith ['\x7d'] (templateLine ps) = false := rfl
  have hbrace : templateLine ps ≠ ['\x7b'] := nofun
  have hnamespace : namespaceName? (templateLine ps) = none := rfl
  have hstart : templateStart? (templateLine ps) = some (Parameter.printList ps ++ ['>']) := rfl
  have hlist : Block.enclosed '<' '>' 1 (Parameter.printList ps ++ ['>']) rest =
      some (⟨[Parameter.printList ps], []⟩, rest) := by
    cases rest with
    | nil => rw [Block.enclosed, hclosed]
    | cons raw rest => rw [Block.enclosed, hclosed]
  have hmode : ({} : Mode).enumerators = false := rfl
  rw [readStatement_eq_readCode (by rw [trim_templateLine]; rfl) (by rw [trim_templateLine]; rfl)
    (by rw [trim_templateLine]; rfl), trim_templateLine, readCode, hmode, if_neg Bool.false_ne_true,
    hignored, hlabel, hlinkage, hend, if_neg hbrace]
  simp only [hnamespace, hstart, readTemplate, hlist, Bool.false_eq_true, Bool.or_false, if_false,
    joinLines_singleton, allBlank_nil, if_true]

/-- The token of a definition that is printed on a line. -/
def definitionToken (s : Signature) (line : Int) : Token :=
  ⟨definitionStatement s, line, line + 1, 0⟩

/-- The printed line of a definition is one token. -/
theorem streamFrom_definitionLine (h : s.IsDefinition)
    (hvalue : ∀ value ∈ s.value, Source.IsPlainValue value.toList)
    (hline : IsUnbroken s.definitionLine) (fuel : Nat) (line : Int) :
    streamFrom {} (fuel + 2) ⟨line, [s.definitionLine], []⟩ =
      ⟨[], .ok [definitionToken s line, ⟨.eof, line + 1, line + 1, 0⟩]⟩ := by
  have hread : readStatement {} s.definitionLine line [] [] =
      .ok { statement := definitionStatement s, scopes := [], rest := [] } :=
    readStatement_definitionLine h hvalue hline []
  have hend : line + 1 = line + (([] : List Line).length + 1) - ([] : List Line).length := by simp
  have hheight : ¬((30 : Nat) : Int) < line + 1 - line := by omega
  have hstep := step_of_readStatement rfl hread rfl hend (decide_eq_false hheight)
  exact streamFrom_cons hstep nofun (streamFrom_nil _ _ _)

/-- The token of a template that is printed on the first line. -/
def templateToken (ps : List Parameter) : Token :=
  ⟨.template (String.ofList (trim (Parameter.printList ps))), 1, 2, 0⟩

/-- The printed lines of a template and a definition are two tokens. -/
theorem stream_templateLine (h : s.IsDefinition)
    (hvalue : ∀ value ∈ s.value, Source.IsPlainValue value.toList)
    (hline : IsUnbroken s.definitionLine) (hclosed : IsClosedTemplate ps) :
    stream {} 1 [templateLine ps, s.definitionLine] =
      ⟨[], .ok [templateToken ps, definitionToken s 2, ⟨.eof, 3, 3, 0⟩]⟩ := by
  have hread : readStatement {} (templateLine ps) 1 [] [s.definitionLine] = .ok {
      statement := .template (String.ofList (trim (Parameter.printList ps)))
      scopes := []
      rest := [s.definitionLine] } :=
    readStatement_templateLine hclosed [s.definitionLine]
  have hskip : skipBlankLines [s.definitionLine] = [s.definitionLine] := rfl
  have hend : (2 : Int) = 1 + ([s.definitionLine].length + 1) - [s.definitionLine].length := rfl
  have hstep := step_of_readStatement rfl hread hskip hend rfl
  exact streamFrom_cons hstep nofun (streamFrom_definitionLine h hvalue hline 0 2)

end Token

/-! ## The entry of a printed definition -/

namespace Header

variable {members : String → RecordHead → Logged ParseError Entries} {b : Builder} {token : Token}
  {s : Signature}

/-- A declaration without a body that ends the tokens. -/
theorem Builder.run_lone (hs : signature? token.statement = some s)
    (hbody : ∀ name, bodyOf members name token = pure none) (last : Int) :
    ∃ log, b.run members [token, ⟨.eof, last, last, 0⟩] =
      ⟨log, .ok { b.declareWith token s none with entriesEnd := some last }⟩ := by
  rw [Builder.run_of_signature hs, Builder.declare_eq rfl, hbody]
  simp only [writeAll, Logged.pure_def, Logged.ok_bind]
  exact ⟨_, rfl⟩

/-- A declaration without a body, behind a template or behind nothing, makes up the entries. -/
theorem ofTokens_lone (name : String) (options : ParseOptions) {front : List Token}
    (hfront : front = [] ∨ ∃ template text, front = [template] ∧
      template.statement = .template text)
    (hs : signature? token.statement = some s)
    (hbody : ∀ members name, bodyOf members name token = pure none) (last : Int) :
    ∃ header doc template,
      (ofTokens name options (front ++ [token, ⟨.eof, last, last, 0⟩])).outcome = .ok header ∧
      header.entries = [(Entry.key ⟨complete options doc template token s, none⟩,
        .single ⟨complete options doc template token s, none⟩)] := by
  -- the builder stands in front of the declaration with or without a template
  have hrun (members : String → RecordHead → Logged ParseError Entries) :
      ∃ (b : Builder) (log : Log), b.options = options ∧ b.entries = [] ∧
        Builder.run members (front ++ [token, ⟨.eof, last, last, 0⟩]) { name, options } =
          ⟨log, .ok { b.declareWith token s none with entriesEnd := some last }⟩ := by
    obtain rfl | ⟨template, text, rfl, htemplate⟩ := hfront
    · let first : Builder := { name, options }
      obtain ⟨log, hrun⟩ := first.run_lone hs (hbody members) last
      exact ⟨first, log, rfl, rfl, hrun⟩
    · let waiting : Builder :=
        { name, options, template := some ⟨text, template.beginLine, template.endLine⟩ }
      obtain ⟨log, hrun⟩ := waiting.run_lone hs (hbody members) last
      refine ⟨waiting, log, rfl, rfl, ?_⟩
      rw [List.singleton_append, Builder.run_of_template htemplate]
      exact (congrArg (_ >>= fun _ => ·) hrun).trans rfl
  obtain ⟨b, log, hoptions, hnone, hrun⟩ := hrun (membersOf options
    (weight ((front ++ [token, ⟨.eof, last, last, 0⟩]).flatMap bodyLines) + 1))
  obtain ⟨_, _, _, _, hdeclared⟩ := b.declareWith_eq token s none
  have hentries : (b.declareWith token s none).entries =
      [((b.entryOf token s none).key, .single (b.entryOf token s none))] := by
    rw [hdeclared, hnone]
    rfl
  have htemplate : (b.declareWith token s none).template = none := by rw [hdeclared]
  refine ⟨Builder.header { b.declareWith token s none with entriesEnd := some last },
    b.docFor (b.firstLine token), b.template, ?_, ?_⟩
  · rw [ofTokens, Builder.runAll, hrun]
    simp only [Logged.ok_bind, Builder.checkTemplate, htemplate]
    rfl
  · rw [← hoptions]
    exact hentries

/-- What a printed definition says. -/
theorem signature?_definitionStatement (h : s.IsDefinition) :
    signature? (Token.definitionStatement s) =
      some { name := s.name, kind := .definition,
             parameters := s.parameters, value := s.value } := by
  have hparameters : (s.parameters.map fun ps => String.ofList (trim (Parameter.printList ps))).map
      (fun text => Parameter.bareNames text.toList) = s.parameters := by
    cases hps : s.parameters with
    | none => rfl
    | some ps =>
      obtain ⟨names, rfl, hnames⟩ := h.parameters ps hps
      have hbare : ∀ name ∈ names, Parameter.IsBareName name :=
        fun name hname => (hnames name hname).1
      rw [Option.map_some, Option.map_some, String.toList_ofList, Parameter.printList_bareNames,
        Parameter.trim_intercalate hbare, Parameter.bareNames_intercalate hbare]
  simp only [signature?, Token.definitionStatement, hparameters, Option.getD_none]

/-- Only definitions have signatures of definitions. -/
theorem exists_definition_of_signature {statement : Statement} (hs : signature? statement = some s)
    (hkind : s.kind = .definition) :
    ∃ name parameters doc value, statement = .definition name parameters doc value := by
  cases statement with
  | definition => exact ⟨_, _, _, _, rfl⟩
  | record head =>
    cases hs
    obtain ⟨kind, _⟩ := head
    cases kind with
    | struct | union | enum => cases hkind
  | typeAlias | callback | forward | function | var =>
    cases hs
    cases hkind
  | _ => cases hs

/-- A definition among the entries of a header is one that a directive says. -/
theorem isDefinition_of_holds {source : String} {options : ParseOptions} {lines : List Line}
    {header : Header} {e : Entry} (h : (ofLines source options lines).outcome = .ok header)
    (hentry : header.entries.Holds e) (hkind : e.kind = .definition) : e.IsDefinition := by
  obtain ⟨tokens, token, ⟨mode, first, inner, hstream⟩, htoken, hof⟩ :=
    ofLines_comesFromToken h hentry
  obtain ⟨s, doc, template, hs, hcomplete⟩ : ∃ s doc template,
      signature? token.statement = some s ∧
        e.toSignature = complete options doc template token s := by
    cases hof with
    | plain hs => exact ⟨_, _, _, hs, rfl⟩
    | record hs => exact ⟨_, _, _, hs, rfl⟩
  obtain ⟨_, _, _, heq⟩ := complete_eq options doc template token s
  rw [heq] at hcomplete
  have hname : e.name = s.name := by rw [hcomplete]
  have hparameters : e.parameters = s.parameters := by rw [hcomplete]
  have hvalue : e.value = s.value := by rw [hcomplete]
  have hkind' : s.kind = .definition := by rw [← hkind, hcomplete]
  obtain ⟨name, parameters, doc', value, hstatement⟩ := exists_definition_of_signature hs hkind'
  obtain ⟨c, next, hstep, rfl⟩ := (Token.run_of_streamFrom hstream).exists_step htoken
  obtain ⟨raw, rest, left, -, horigin, -⟩ :=
    Token.exists_origin_of_step hstep (by rw [hstatement]; rfl)
  rw [hstatement] at horigin hs
  -- only a directive gives a statement of this kind
  cases horigin with
  | definition hread =>
    have hdefinition := Directive.isDefinition_of_read hread hs
    refine ⟨hkind, ?_, ?_, ?_, ?_, ?_⟩
    · rw [hname]
      exact hdefinition.name_ne_nil
    · rw [hname]
      exact hdefinition.isWord
    · rw [hname]
      exact hdefinition.name_end
    · rw [hparameters]
      exact hdefinition.parameters
    · rw [hvalue]
      exact hdefinition.value

end Header

/-- Unbroken lines that are joined are cut into the same lines, when the last one is not empty. -/
theorem Text.lines_joinLines_concat {ls : List Line} {l : Line} (hne : l ≠ [])
    (h : ∀ m ∈ ls ++ [l], IsUnbroken m) : lines (joinLines (ls ++ [l])) = ls ++ [l] := by
  obtain ⟨front, c, rfl⟩ := (List.eq_nil_or_concat' l).resolve_left hne
  have hlast : (joinLines (ls ++ [front ++ [c]])).getLast? = some c := getLast?_joinLines ls front c
  have hc : isSeparator c = false :=
    h (front ++ [c]) (List.mem_append_right ls List.mem_cons_self) c
      (List.mem_append_right front List.mem_cons_self)
  rw [lines_eq_pieces, pieces_joinLines (by simp),
    flatMap_pieces fun m hm => (h m hm).newline_not_mem]
  · intro hnil
    rw [hnil] at hlast
    cases hlast
  · intro d hd hseparator
    rcases mem_joinLines hd with hfeed | ⟨m, hm, hmem⟩
    · exact hfeed
    · rw [h m hm d hmem] at hseparator
      cases hseparator
  · rw [hlast]
    rintro ⟨⟩
    exact absurd hc (by decide)

theorem Signature.definitionLine_ne_nil (s : Signature) : s.definitionLine ≠ [] := nofun

namespace Header

/-- What a definition that is printed on its own is read as, behind its template if it has one. -/
theorem ofLines_definitionLines {s : Signature} (h : s.IsDefinition)
    (hvalue : ∀ value ∈ s.value, Source.IsPlainValue value.toList)
    (hline : IsUnbroken s.definitionLine) {template : Option (List Parameter)}
    (htemplate : ∀ ps ∈ template, IsClosedTemplate ps) (name : String) (options : ParseOptions) :
    ∃ read entry, (ofLines name options
        ((template.map templateLine).toList ++ [s.definitionLine])).outcome = .ok read ∧
      read.entries = [(s.name, .single entry)] ∧ entry.kind = .definition ∧ entry.name = s.name ∧
        entry.parameters = s.parameters ∧ entry.value = s.value := by
  -- the tokens are the one of the definition and the one of its template
  obtain ⟨front, number, last, hfront, hstream⟩ : ∃ (front : List Token) (number last : Int),
      (front = [] ∨ ∃ first text, front = [first] ∧ first.statement = .template text) ∧
        Token.stream {} 1 ((template.map templateLine).toList ++ [s.definitionLine]) =
          ⟨[], .ok (front ++ [Token.definitionToken s number, ⟨.eof, last, last, 0⟩])⟩ := by
    cases template with
    | none => exact ⟨[], 1, 2, .inl rfl, Token.streamFrom_definitionLine h hvalue hline 0 1⟩
    | some ps =>
      exact ⟨[Token.templateToken ps], 2, 3, .inr ⟨_, _, rfl, rfl⟩,
        Token.stream_templateLine h hvalue hline (htemplate ps rfl)⟩
  have hbody (members : String → RecordHead → Logged ParseError Entries) (inner : String) :
      bodyOf members inner (Token.definitionToken s number) = pure none := rfl
  obtain ⟨header, doc, pending, hread, hentries⟩ := ofTokens_lone name options hfront
    (signature?_definitionStatement h) hbody last
  obtain ⟨_, _, _, heq⟩ := complete_eq options doc pending (Token.definitionToken s number)
    { name := s.name, kind := .definition, parameters := s.parameters, value := s.value }
  rw [heq] at hentries
  refine ⟨header, _, ?_, hentries, rfl, rfl, rfl, rfl⟩
  rw [ofLines, hstream]
  exact hread

/-- **Reading printed definitions.**  A definition of a header, at any depth, is printed without its
doc, and its lines are joined and split again: they give one entry, a definition with the same name,
parameters and value, when each printed line is one line, the code of the value is all of it, the
value does not end in a backslash, and a template in front of the definition ends with its line. -/
theorem ofLines_lines_definition {source : String} {options : ParseOptions}
    {lines : List Line} {header : Header} {e : Entry}
    (h : (ofLines source options lines).outcome = .ok header) (hentry : header.entries.Holds e)
    (hkind : e.kind = .definition)
    (hlines : ∀ line ∈ Entry.lines [] { e with doc := "" }, IsUnbroken line)
    (hvalue : ∀ value ∈ e.value, Source.IsPlainValue value.toList)
    (htemplate : ∀ ps ∈ e.template, IsClosedTemplate ps) (name : String)
    (options' : ParseOptions) :
    ∃ read entry, (ofLines name options'
        (Text.lines (joinLines (Entry.lines [] { e with doc := "" })))).outcome = .ok read ∧
      read.entries = [(e.name, .single entry)] ∧ entry.kind = .definition ∧ entry.name = e.name ∧
        entry.parameters = e.parameters ∧ entry.value = e.value := by
  have hdefinition := isDefinition_of_holds h hentry hkind
  rw [Entry.lines_definition hkind] at hlines ⊢
  have hline : IsUnbroken e.definitionLine :=
    hlines e.definitionLine (List.mem_append_right _ List.mem_cons_self)
  rw [lines_joinLines_concat (Signature.definitionLine_ne_nil _) hlines]
  exact ofLines_definitionLines hdefinition hvalue hline htemplate name options'

/-- A header whose entries are known by one of their parts. -/
theorem exists_one_of_map {α : Type} {part : Entry → α} {outcome : Except ParseError Header} {a : α}
    (h : (outcome.toOption.map fun header => header.entries.toList.map part) = some [a]) :
    ∃ header e, outcome = .ok header ∧ header.entries.toList = [e] ∧ part e = a := by
  obtain ⟨header, hheader, hentries⟩ := Option.map_eq_some_iff.1 h
  obtain ⟨e, hone, hpart⟩ := List.map_eq_singleton_iff.1 hentries
  cases outcome with
  | error e => cases hheader
  | ok read =>
    cases hheader
    exact ⟨_, e, rfl, hone, hpart⟩

/-- A function-like definition whose value stands on a continuation line. -/
def versionLines : List Line :=
  ["#define VERSION(major, minor) \\".toList, "  ((major) * 1000 + (minor))".toList]

set_option synthInstance.maxSize 1000 in
/-- The definition of `versionLines` is printed on one line and read back. -/
theorem ofLines_lines_version : ∃ header e, (ofLines "a.h" {} versionLines).outcome = .ok header ∧
    header.entries.Holds e ∧ e.name = "VERSION" ∧
      e.value = some "((major) * 1000 + (minor))" ∧
      ∃ read entry, (ofLines "b.h" {}
          (Text.lines (joinLines (Entry.lines [] { e with doc := "" })))).outcome = .ok read ∧
        read.entries = [(e.name, .single entry)] ∧ entry.kind = .definition ∧
          entry.name = e.name ∧ entry.parameters = e.parameters ∧ entry.value = e.value := by
  have hread : ((ofLines "a.h" {} versionLines).outcome.toOption.map fun header =>
      header.entries.toList.map fun e =>
        (e.kind, e.name, e.template.isNone, e.value, Entry.lines [] { e with doc := "" })) =
        some [(.definition, "VERSION", true, some "((major) * 1000 + (minor))",
          ["#define VERSION(major, minor) ((major) * 1000 + (minor))".toList])] := by
    decide +kernel
  obtain ⟨header, e, h, hone, hparts⟩ := exists_one_of_map hread
  obtain ⟨hkind, hname, hnone, hvalue, hline⟩ : e.kind = .definition ∧ e.name = "VERSION" ∧
      e.template.isNone = true ∧ e.value = some "((major) * 1000 + (minor))" ∧
        Entry.lines [] { e with doc := "" } =
          ["#define VERSION(major, minor) ((major) * 1000 + (minor))".toList] := by
    simpa only [Prod.mk.injEq] using hparts
  have hentry : header.entries.Holds e := .here (hone ▸ List.mem_cons_self)
  refine ⟨header, e, h, hentry, hname, hvalue,
    ofLines_lines_definition h hentry hkind ?_ ?_ ?_ "b.h" {}⟩
  · rw [hline]
    intro line hmem
    rw [List.mem_singleton.1 hmem]
    decide
  · rw [hvalue]
    rintro _ ⟨⟩
    exact ⟨by decide +kernel, by decide +kernel⟩
  · rw [Option.isNone_iff_eq_none.1 hnone]
    exact nofun

/-- A definition whose value goes on on its second line. -/
def areaLines : List Line := ["#define AREA(w, h) ((w) * \\".toList, " (h))".toList]

/-- A definition with a value on two lines is printed without the backslash between them, and the
second line is not understood when the lines are read back. -/
theorem not_forall_ofLines_lines_definition :
    ¬ ∀ (source : String) (options : ParseOptions) (lines : List Line) (header : Header) (e : Entry)
      (name : String) (options' : ParseOptions),
      (ofLines source options lines).outcome = .ok header → header.entries.Holds e →
      e.kind = .definition →
      ∃ read entry, (ofLines name options'
          (Text.lines (joinLines (Entry.lines [] { e with doc := "" })))).outcome = .ok read ∧
        read.entries = [(e.name, .single entry)] ∧ entry.kind = .definition ∧
          entry.name = e.name ∧ entry.parameters = e.parameters ∧ entry.value = e.value := by
  intro hall
  have hread : ((ofLines "a.h" {} areaLines).outcome.toOption.map fun header =>
      header.entries.toList.map fun e => (e.kind, Entry.lines [] { e with doc := "" })) =
        some [(.definition, ["#define AREA(w, h) ((w) *\n(h))".toList])] := by
    decide +kernel
  have hsplit : Text.lines (joinLines ["#define AREA(w, h) ((w) *\n(h))".toList]) =
      ["#define AREA(w, h) ((w) *".toList, "(h))".toList] := by
    have hjoin : joinLines ["#define AREA(w, h) ((w) *\n(h))".toList] =
        joinLines (["#define AREA(w, h) ((w) *".toList] ++ ["(h))".toList]) := by
      decide +kernel
    rw [hjoin, lines_joinLines_concat (by decide) (by decide)]
    rfl
  have hagain : (ofLines "b.h" {}
      ["#define AREA(w, h) ((w) *".toList, "(h))".toList]).outcome.isOk = false := by
    decide +kernel
  obtain ⟨header, e, h, hone, hparts⟩ := exists_one_of_map hread
  obtain ⟨hkind, hlines⟩ : e.kind = .definition ∧
      Entry.lines [] { e with doc := "" } = ["#define AREA(w, h) ((w) *\n(h))".toList] := by
    simpa only [Prod.mk.injEq] using hparts
  obtain ⟨read, entry, hok, -⟩ := hall "a.h" {} areaLines header e "b.h" {} h
    (.here (hone ▸ List.mem_cons_self)) hkind
  rw [hlines, hsplit] at hok
  rw [hok] at hagain
  cases hagain

end Header

end HeaderApi
