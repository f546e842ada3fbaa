import HeaderApi.Proofs.PrintedDefinitions
import HeaderApi.Proofs.VisibleTexts

/-!
# Initializers

The value of a definition and the initializer of a variable are read from text that may run over
several lines.  Where this text has neither comments nor literals, they have all its visible
characters.
-/

namespace HeaderApi

open Text Source

/-! ## Trimmed and empty texts -/

namespace Text

/-- A trimmed text begins with no blanks. -/
theorem trimStart_trim (cs : List Char) : trimStart (trim cs) = trim cs := by
  cases htrim : trim cs with
  | nil => rfl
  | cons c rest => exact trimStart_cons (head?_trim cs c (by rw [htrim]; rfl)) rest

/-- A text that counts as nothing when it is empty. -/
theorem toList_getD_ofList (cs : List Char) :
    ((if cs = [] then none else some (String.ofList cs)).getD "").toList = cs := by
  split
  · rename_i hcs
    rw [hcs]
    rfl
  · exact String.toList_ofList

end Text

/-! ## Text that is its own code -/

namespace Source

variable {c : Char} {cs rest : List Char}

/-- A text is all code when its first character stays code and the rest is all code. -/
theorem code_cons_iff : code (c :: rest) = c :: rest ↔
    Lexing.code.keeps c rest = true ∧ code rest = rest := by
  rw [code_eq_output, code_eq_output]
  constructor
  · exact Lexing.keeps_of_output
  · rintro ⟨hkept, hrest⟩
    have hcode : (Lexing.code.isCode && Lexing.code.keeps c rest) = true := hkept
    rw [Lexing.output, if_pos hcode]
    unfold Lexing.keeps at hkept
    split at hkept
    · rename_i hnext
      rw [hnext, hrest]
    · rename_i hnext
      obtain ⟨hslash, hstar⟩ := Bool.and_eq_true_iff.1 hkept
      rw [hnext, Lexing.output_slash (of_decide_eq_true hslash) (of_decide_eq_true hstar), hrest]
    · cases hkept

/-- Whether a character stays code depends on the next one only. -/
theorem keeps_congr {rest' : List Char} (h : Lexing.code.keeps c rest = true)
    (hhead : ∀ d ∈ rest'.head?, d ∈ rest.head? ∨ d ≠ '/' ∧ d ≠ '*') :
    Lexing.code.keeps c rest' = true := by
  unfold Lexing.keeps at h ⊢
  split at h
  · rfl
  · obtain ⟨hslash, hstar⟩ := Bool.and_eq_true_iff.1 h
    refine Bool.and_eq_true_iff.2 ⟨decide_eq_true fun hd => ?_, decide_eq_true fun hd => ?_⟩
    · rcases hhead '/' hd with hmem | ⟨hne, -⟩
      · exact of_decide_eq_true hslash hmem
      · exact hne rfl
    · rcases hhead '*' hd with hmem | ⟨-, hne⟩
      · exact of_decide_eq_true hstar hmem
      · exact hne rfl
  · cases h

/-- Texts that are their own code are so together, unless a comment begins between them. -/
theorem code_append (hcs : code cs = cs) (hrest : code rest = rest)
    (hhead : ∀ d ∈ rest.head?, d ≠ '/' ∧ d ≠ '*') : code (cs ++ rest) = cs ++ rest := by
  induction cs with
  | nil => exact hrest
  | cons c cs ih =>
    obtain ⟨hkept, hcs⟩ := code_cons_iff.1 hcs
    refine code_cons_iff.2 ⟨keeps_congr hkept fun d hd => ?_, ih hcs⟩
    cases cs with
    | nil => exact .inr (hhead d hd)
    | cons c' cs => exact .inl hd

/-- The front of a text that is all code is all code. -/
theorem code_of_isPrefix (h : code cs = cs) (hrest : rest <+: cs) : code rest = rest := by
  induction rest generalizing cs with
  | nil => rfl
  | cons c rest ih =>
    obtain ⟨tail, rfl⟩ := hrest
    obtain ⟨hkept, hcs⟩ := code_cons_iff.1 h
    refine code_cons_iff.2 ⟨keeps_congr hkept fun d hd => .inl ?_, ih hcs ⟨tail, rfl⟩⟩
    cases rest with
    | nil => cases hd
    | cons d' rest => exact hd

/-- The rest of a text that is all code is all code. -/
theorem code_of_isSuffix (h : code cs = cs) (hrest : rest <:+ cs) : code rest = rest := by
  obtain ⟨front, rfl⟩ := hrest
  induction front with
  | nil => exact h
  | cons c front ih => exact ih (code_cons_iff.1 h).2

theorem code_of_isInfix (h : code cs = cs) (hrest : rest <:+: cs) : code rest = rest := by
  obtain ⟨front, tail, happend⟩ := hrest
  exact code_of_isSuffix (code_of_isPrefix h ⟨tail, happend⟩) ⟨front, rfl⟩

/-- A blank in front of a text that is all code is code. -/
theorem code_cons_of_blank (hblank : isBlank c = true) (h : code rest = rest) :
    code (c :: rest) = c :: rest := by
  refine code_cons_iff.2 ⟨?_, h⟩
  have hslash : c ≠ '/' := by
    rintro rfl
    cases hblank
  have hquote : isQuote c = false := by
    rw [isQuote, Bool.or_eq_false_iff]
    constructor
    · refine decide_eq_false ?_
      rintro rfl
      cases hblank
    · refine decide_eq_false ?_
      rintro rfl
      cases hblank
  simp [Lexing.keeps, Lexing.next, hslash, hquote]

/-- Lines that are their own code are so together, whichever blank joins them. -/
theorem code_intercalate (hblank : isBlank c = true) {ls : List Line}
    (h : ∀ l ∈ ls, code l = l) : code ([c].intercalate ls) = [c].intercalate ls := by
  have hhead : c ≠ '/' ∧ c ≠ '*' := by
    constructor
    · rintro rfl
      cases hblank
    · rintro rfl
      cases hblank
  induction ls with
  | nil => rfl
  | cons l ls ih =>
    obtain ⟨hl, hls⟩ := List.forall_mem_cons.1 h
    cases ls with
    | nil => rwa [List.intercalate_singleton]
    | cons l' ls =>
      rw [List.intercalate_cons_cons, List.append_assoc]
      refine code_append hl (code_cons_of_blank hblank (ih hls)) ?_
      rintro _ ⟨⟩
      exact hhead

/-- Nothing is stripped from a text that is all code, and no comment is open behind it. -/
theorem strip_of_code (h : code cs = cs) : strip cs false = (cs, false) := by
  have houtput : Lexing.code.output cs = cs := by rw [← code_eq_output, h]
  rw [strip_eq]
  exact Prod.ext houtput (Lexing.inComment_of_isCode (Lexing.isCode_after_of_output rfl houtput))

end Source

/-! ## Values of definitions -/

namespace Directive

variable {line : Line} {rest left : List Line} {name text : List Char}
  {parameters : Option (List Char)}

/-- A line without the backslash that continues it on the next one. -/
def uncontinued (line : Line) : Line := if endsWith ['\\'] line then line.dropLast else line

/-- Lines that one directive runs over, in front of the lines that are left. -/
structure RunsOver (lines left : List Line) : Prop where
  continued : ∀ line ∈ lines.dropLast, endsWith ['\\'] line = true
  last : left ≠ [] → ∀ line ∈ lines.getLast?, endsWith ['\\'] line = false

/-- The parameters of a definition as they stand on its line. -/
def parameterText (parameters : Option (List Char)) : List Char :=
  (parameters.map fun inside => '(' :: inside ++ [')']).getD []

/-- A line that defines a name: the word behind the keyword, its parameters when a parenthesis next
to the name is closed on the line, and the text behind them. -/
structure Defines (line name : List Char) (parameters : Option (List Char)) (text : List Char) :
    Prop where
  line_eq : ∃ blanks gap, allBlank blanks = true ∧ allBlank gap = true ∧ gap ≠ [] ∧
    line = '#' :: blanks ++ "define".toList ++ gap ++ name ++ parameterText parameters ++ text
  name_ne_nil : name ≠ []
  isWord : ∀ c ∈ name, isWord c = true
  ends : ∀ c ∈ (parameterText parameters ++ text).head?, Text.isWord c = false
  closed : ∀ inside ∈ parameters, ')' ∉ inside
  bare : parameters = none → text.head? = some '(' → ')' ∉ text

/-- A continuation takes lines up to the first that is not continued, each of them trimmed. -/
theorem exists_continuation (line : Line) (rest : List Line) : ∃ others left,
    rest = others ++ left ∧ continuation line rest = (others.map trim, left) ∧
      RunsOver (line :: others.map trim) left := by
  induction rest generalizing line with
  | nil => exact ⟨[], [], rfl, rfl, nofun, fun hne => absurd rfl hne⟩
  | cons raw rest ih =>
    rw [continuation]
    cases hend : endsWith ['\\'] line with
    | true =>
      obtain ⟨others, left, rfl, htaken, hruns⟩ := ih (trim raw)
      refine ⟨raw :: others, left, rfl, ?_, ?_, ?_⟩
      · rw [if_pos rfl]
        dsimp only
        rw [htaken, List.map_cons]
      · rw [List.map_cons, List.dropLast_cons_of_ne_nil (List.cons_ne_nil _ _)]
        exact List.forall_mem_cons.2 ⟨hend, hruns.continued⟩
      · rw [List.map_cons, List.getLast?_cons_cons]
        exact hruns.last
    | false =>
      refine ⟨[], raw :: rest, rfl, if_neg Bool.false_ne_true, nofun, ?_⟩
      rintro - _ ⟨⟩
      exact hend

/-- The parameters of a definition reach from a parenthesis next to the name to the first closing
one. -/
theorem splitParameters_cases (cs : List Char) :
    (∃ inside text, splitParameters cs = (some inside, text) ∧ cs = '(' :: inside ++ ')' :: text ∧
      ')' ∉ inside) ∨
    (splitParameters cs = (none, cs) ∧ (cs.head? = some '(' → ')' ∉ cs)) := by
  unfold splitParameters
  split
  · rename_i inner
    split
    · rename_i inside text hcut
      obtain ⟨rfl, hinside⟩ := cutAt_eq_some_iff.1 hcut
      exact .inl ⟨inside, text, rfl, rfl, hinside⟩
    · rename_i hcut
      refine .inr ⟨rfl, fun _ => ?_⟩
      exact List.not_mem_cons_of_ne_of_not_mem (by decide) (cutAt_eq_none_iff.1 hcut)
  · rename_i hne
    refine .inr ⟨rfl, fun hhead => ?_⟩
    obtain ⟨inner, rfl⟩ := List.head?_eq_some_iff.1 hhead
    exact absurd rfl (hne inner)

/-- The split at the parameters is the only one whose parts have no closing parenthesis too early.
-/
theorem splitParameters_eq_iff {behind : List Char} :
    splitParameters behind = (parameters, text) ↔ behind = parameterText parameters ++ text ∧
      (∀ inside ∈ parameters, ')' ∉ inside) ∧
        (parameters = none → text.head? = some '(' → ')' ∉ text) := by
  constructor
  · intro h
    obtain ⟨inside, text', hsplit, rfl, hinside⟩ | ⟨hsplit, hbare⟩ := splitParameters_cases behind
    · rw [h] at hsplit
      cases hsplit
      refine ⟨by simp [parameterText], ?_, nofun⟩
      rintro _ ⟨⟩
      exact hinside
    · rw [h] at hsplit
      cases hsplit
      exact ⟨rfl, nofun, fun _ => hbare⟩
  · rintro ⟨rfl, hclosed, hbare⟩
    cases parameters with
    | some inside =>
      have hcut : cutAt ')' (inside ++ ')' :: text) = some (inside, text) :=
        cutAt_eq_some_iff.2 ⟨rfl, hclosed inside rfl⟩
      simp [parameterText, splitParameters, hcut]
    | none =>
      obtain ⟨inside, text', -, htext, -⟩ | ⟨hsplit, -⟩ :=
        splitParameters_cases (parameterText none ++ text)
      · -- a closed list at the front would be the parameters
        change text = '(' :: inside ++ ')' :: text' at htext
        refine absurd ?_ (hbare rfl (by rw [htext]; rfl))
        rw [htext]
        exact List.mem_append_right _ List.mem_cons_self
      · exact hsplit

/-- The keyword is read behind a hash sign and blanks. -/
theorem keyword?_define_eq_some_iff : keyword? "define".toList line = some text ↔
    ∃ blanks, allBlank blanks = true ∧ line = '#' :: blanks ++ "define".toList ++ text := by
  simp only [keyword?, Option.bind_eq_bind, Option.bind_eq_some_iff, after?_eq_some_iff]
  constructor
  · rintro ⟨behind, rfl, hword⟩
    have hbehind : behind = behind.takeWhile isBlank ++ ("define".toList ++ text) := by
      rw [← hword]
      exact List.takeWhile_append_dropWhile.symm
    refine ⟨behind.takeWhile isBlank, List.all_takeWhile, ?_⟩
    rw [List.append_assoc]
    exact congrArg ('#' :: ·) hbehind
  · rintro ⟨blanks, hblanks, rfl⟩
    refine ⟨blanks ++ ("define".toList ++ text), ?_,
      trimStart_append_of_blank (List.all_eq_true.1 hblanks) _⟩
    simp only [List.cons_append, List.append_assoc, List.nil_append]

/-- A definition that is read defines what it says. -/
theorem defines_of_definition? (h : definition? line = some ⟨name, parameters, text⟩) :
    Defines line name parameters text ∧ '\n' ∉ text := by
  simp only [definition?, Option.bind_eq_bind, Option.bind_eq_some_iff,
    keyword?_define_eq_some_iff] at h
  obtain ⟨_, ⟨blanks, hblanks, rfl⟩, behind, hbehind, h⟩ := h
  obtain ⟨gap, rfl, hgap, hne⟩ := exists_of_afterBlanks? hbehind
  generalize hsplit : splitParameters (behind.dropWhile Text.isWord) = parts at h
  split at h
  · cases h
  · rename_i hguard
    cases h
    rw [Bool.or_eq_true, not_or] at hguard
    obtain ⟨hname, hline⟩ := hguard
    obtain ⟨htail, hclosed, hbare⟩ := splitParameters_eq_iff.1 hsplit
    have hbehind : behind.takeWhile Text.isWord ++ behind.dropWhile Text.isWord = behind :=
      List.takeWhile_append_dropWhile
    -- the name is the run of word characters, and what follows it is split once more
    refine ⟨⟨⟨blanks, gap, hblanks, hgap, hne, ?_⟩, ?_, ?_, ?_, hclosed, hbare⟩, ?_⟩
    · rw [List.append_assoc _ (parameterText _), ← htail, List.append_assoc _ (List.takeWhile _ _),
        hbehind, List.append_assoc _ gap]
    · simpa using hname
    · exact fun c hc => List.all_eq_true.1 List.all_takeWhile c hc
    · rw [← htail]
      intro c hc
      obtain ⟨tail, htail⟩ := List.head?_eq_some_iff.1 hc
      exact eq_false_of_dropWhile htail
    · simpa using hline

/-- A line that defines something is read as this definition. -/
theorem definition?_of_defines (h : Defines line name parameters text) (hline : '\n' ∉ text) :
    definition? line = some ⟨name, parameters, text⟩ := by
  obtain ⟨blanks, gap, hblanks, hgap, hne, rfl⟩ := h.line_eq
  obtain ⟨c, gap, rfl⟩ := List.exists_cons_of_ne_nil hne
  obtain ⟨hc, hgap⟩ := Bool.and_eq_true_iff.1 hgap
  have hkeyword : keyword? "define".toList ('#' :: blanks ++ "define".toList ++ (c :: gap) ++
      name ++ parameterText parameters ++ text) =
      some (c :: (gap ++ (name ++ (parameterText parameters ++ text)))) :=
    keyword?_define_eq_some_iff.2 ⟨blanks, hblanks, by simp only [List.append_assoc,
      List.cons_append]⟩
  have hvisible : ∀ c ∈ name, isBlank c = false :=
    fun c hc => Spelling.isBlank_of_isWord (h.isWord c hc)
  have hbehind : afterBlanks? (c :: (gap ++ (name ++ (parameterText parameters ++ text)))) =
      some (name ++ (parameterText parameters ++ text)) := by
    rw [afterBlanks?, if_pos hc, trimStart_append_of_blank (List.all_eq_true.1 hgap),
      trimStart_append h.name_ne_nil hvisible]
  have hcontains : text.contains '\n' = false := by simpa using hline
  have hsplit : splitParameters (parameterText parameters ++ text) = (parameters, text) :=
    splitParameters_eq_iff.2 ⟨rfl, h.closed, h.bare⟩
  simp only [definition?, hkeyword, hbehind, Option.bind_eq_bind, Option.bind_some,
    takeWhile_append_of_head h.isWord h.ends, dropWhile_append_of_head h.isWord h.ends, hsplit,
    hcontains, Bool.or_false]
  exact if_neg (by simpa using h.name_ne_nil)

/-- What `definition?` finds in a line. -/
theorem definition?_eq_some_iff : definition? line = some ⟨name, parameters, text⟩ ↔
    Defines line name parameters text ∧ '\n' ∉ text :=
  ⟨defines_of_definition?, fun ⟨h, hline⟩ => definition?_of_defines h hline⟩

/-- Whether a line of a definition says nothing but code: it has no comments and no literals, and
one backslash at most is at its end. -/
structure IsPlainLine (line : Line) : Prop where
  code : code line = line
  last : ¬ ['\\', '\\'] <:+ line

/-- At the end of a plain line there is one backslash at most. -/
theorem IsPlainLine.dropEndWhile_eq (h : IsPlainLine line) :
    dropEndWhile (· = '\\') line = uncontinued line := by
  rw [uncontinued]
  by_cases hend : endsWith ['\\'] line = true
  · obtain ⟨front, rfl⟩ := List.getLast?_eq_some_iff.1 (endsWith_singleton_iff.1 hend)
    have hfront : ∀ c ∈ front.getLast?, decide (c = '\\') = false := by
      intro c hc
      refine decide_eq_false ?_
      rintro rfl
      obtain ⟨front, rfl⟩ := List.getLast?_eq_some_iff.1 hc
      exact h.last ⟨front, by simp⟩
    rw [if_pos hend, List.dropLast_concat, dropEndWhile_append_of_pos (by simp),
      dropEndWhile_eq_self hfront]
  · rw [if_neg hend]
    refine dropEndWhile_eq_self fun c hc => decide_eq_false ?_
    rintro rfl
    exact hend (endsWith_singleton_iff.2 hc)

theorem IsPlainLine.visible_withoutBackslash (h : IsPlainLine line) :
    visible (withoutBackslash line) = visible (uncontinued line) := by
  rw [withoutBackslash, visible_trim, h.dropEndWhile_eq]

/-- A plain line without its backslash is all code. -/
theorem IsPlainLine.code_withoutBackslash (h : IsPlainLine line) :
    Source.code (withoutBackslash line) = withoutBackslash line := by
  refine code_of_isInfix h.code ((infix_trim _).trans ?_)
  obtain ⟨tail, happend, -⟩ := dropEndWhile_append (· = '\\') line
  exact (List.prefix_append _ tail).isInfix.trans (by rw [← happend])

/-- A definition that has been read says what its lines say. -/
theorem exists_defines_of_read {defined : String} {list doc value : Option String}
    (h : read line rest = (.definition defined list doc value, left)) :
    ∃ others name parameters text, rest = others ++ left ∧
      RunsOver (line :: others.map trim) left ∧ Defines line name parameters text ∧
      defined = String.ofList name ∧ list = parameters.map (String.ofList ∘ trim) ∧
      ((∀ l ∈ text :: others.map trim, IsPlainLine l) →
        visible (value.getD "").toList =
          visible ((text :: others.map trim).map uncontinued).flatten) := by
  obtain ⟨others, left', rfl, hcontinuation, hruns⟩ := exists_continuation line rest
  rw [read, hcontinuation] at h
  dsimp only at h
  split at h
  · rename_i head hhead
    obtain ⟨name, parameters, text⟩ := head
    obtain ⟨hdefines, -⟩ := definition?_eq_some_iff.1 hhead
    split at h
    · cases h
    · cases h
      refine ⟨others, name, parameters, text, rfl, hruns, hdefines, rfl, rfl, fun hplain => ?_⟩
      -- without comments the value is the joined text, and only its blanks and backslashes are lost
      have hcode : Source.code (joinLines ((text :: others.map trim).map withoutBackslash)) =
          joinLines ((text :: others.map trim).map withoutBackslash) := by
        refine code_intercalate (by decide) fun l hl => ?_
        obtain ⟨l, hmem, rfl⟩ := List.mem_map.1 hl
        exact (hplain l hmem).code_withoutBackslash
      have hvisible : visible (joinLines ((text :: others.map trim).map withoutBackslash)) =
          visible ((text :: others.map trim).map uncontinued).flatten := by
        rw [visible_joinLines]
        exact visible_flatten_map fun l hl => (hplain l hl).visible_withoutBackslash
      rw [Comment.inlineDoc?_of_code hcode]
      simp only [Option.isSome_none, Bool.false_eq_true, if_false]
      rw [hcode, ← hvisible, ← visible_trim (joinLines _)]
      exact congrArg visible (toList_getD_ofList _)
  · cases h

end Directive

/-! ## Initializers of variables -/

namespace Member

variable {cs text init after extents : List Char} {depth : Int} {rest left : List Line}

/-- Array extents without the blanks between them. -/
inductive IsExtents : List Char → Prop
  | nil : IsExtents []
  | cons {inside more : List Char} (hinside : ']' ∉ inside) (hmore : IsExtents more) :
      IsExtents ('[' :: inside ++ ']' :: more)

/-- Cuts a statement at its semicolon, the first one outside braces. -/
def cutStatement : Int → List Char → Option (List Char × List Char)
  | _, [] => none
  | depth, c :: cs =>
    if c = ';' ∧ depth ≤ 0 then some ([], cs)
    else
      let depth := if c = '\x7b' then depth + 1 else if c = '\x7d' then depth - 1 else depth
      (cutStatement depth cs).map fun (init, after) => (c :: init, after)

/-- The two parts of a cut and the semicolon make up the text. -/
theorem eq_of_cutStatement (h : cutStatement depth cs = some (init, after)) :
    cs = init ++ ';' :: after := by
  induction cs generalizing depth init with
  | nil => cases h
  | cons c cs ih =>
    rw [cutStatement] at h
    split at h
    · rename_i hc
      cases h
      rw [hc.1]
      rfl
    · obtain ⟨⟨init', after'⟩, hcut, heq⟩ := Option.map_eq_some_iff.1 h
      cases heq
      exact congrArg (c :: ·) (ih hcut)

/-- Blanks in front of a semicolon that ends a statement do not change the depth. -/
theorem le_of_cutStatement_blank (h : cutStatement depth cs = some (init, after))
    (hblank : allBlank init = true) : depth ≤ 0 := by
  induction cs generalizing depth init with
  | nil => cases h
  | cons c cs ih =>
    rw [cutStatement] at h
    split at h
    · rename_i hc
      exact hc.2
    · obtain ⟨⟨init', after'⟩, hcut, heq⟩ := Option.map_eq_some_iff.1 h
      cases heq
      obtain ⟨hc, hblank⟩ := Bool.and_eq_true_iff.1 hblank
      have hopen : c ≠ '\x7b' := by
        rintro rfl
        cases hc
      have hclose : c ≠ '\x7d' := by
        rintro rfl
        cases hc
      rw [if_neg hopen, if_neg hclose] at hcut
      exact ih hcut hblank

/-- No semicolon stands at the end of a statement in front of its own. -/
theorem getLast?_visible_of_cutStatement (h : cutStatement depth cs = some (init, after)) :
    (visible init).getLast? ≠ some ';' := by
  induction cs generalizing depth init with
  | nil => cases h
  | cons c cs ih =>
    rw [cutStatement] at h
    split at h
    · cases h
      exact nofun
    · rename_i hguard
      obtain ⟨⟨init', after'⟩, hcut, heq⟩ := Option.map_eq_some_iff.1 h
      cases heq
      cases hc : isBlank c with
      | true =>
        rw [visible_cons_of_blank hc]
        exact ih hcut
      | false =>
        rw [visible_cons hc]
        by_cases hinit : visible init' = []
        · rw [hinit]
          -- the statement would have ended at this semicolon, for only blanks follow it
          rintro ⟨⟩
          rw [if_neg (by decide), if_neg (by decide)] at hcut
          exact hguard ⟨rfl, le_of_cutStatement_blank hcut (visible_eq_nil_iff.1 hinit)⟩
        · rw [← List.singleton_append, List.getLast?_append_of_ne_nil _ hinit]
          exact ih hcut

/-- Behind its extents a variable has the sign in front of its initializer. -/
theorem takeExtents_of_visible (hextents : IsExtents extents) {fuel : Nat}
    (hfuel : cs.length ≤ fuel) (h : visible cs = extents ++ '=' :: init) :
    ∃ tail, (takeExtents fuel (trimStart cs)).2 = '=' :: tail ∧ visible tail = init := by
  induction hextents generalizing cs fuel with
  | nil =>
    obtain ⟨tail, htrim, htail⟩ := exists_trimStart_of_visible h
    refine ⟨tail, ?_, htail⟩
    rw [htrim]
    cases fuel with
    | zero => rfl
    | succ fuel => rfl
  | @cons inside more hinside _ ih =>
    obtain ⟨tail, htrim, htail⟩ := exists_trimStart_of_visible h
    have hinner : visible tail = inside ++ ']' :: (more ++ '=' :: init) := by
      rw [htail]
      exact List.append_assoc ..
    obtain ⟨front, behind, hcut, hbehind⟩ :=
      exists_cutAt_of_visible (by decide) hinside hinner
    -- each extent takes characters of the text, so the steps suffice
    have hlength : behind.length + 1 ≤ cs.length := by
      have htail : tail.length + 1 ≤ cs.length := by
        rw [← List.length_cons, ← htrim]
        exact (List.dropWhile_suffix isBlank).length_le
      have hsplit := congrArg List.length (cutAt_eq_some_iff.1 hcut).1
      rw [List.length_append, List.length_cons] at hsplit
      omega
    obtain ⟨fuel, rfl⟩ : ∃ fuel', fuel = fuel' + 1 := ⟨fuel - 1, by omega⟩
    obtain ⟨tail', htaken, htail'⟩ := ih (by omega : behind.length ≤ fuel) hbehind
    refine ⟨tail', ?_, htail'⟩
    rw [htrim, takeExtents, hcut]
    exact htaken

/-- Without the semicolon behind it a statement keeps its visible characters. -/
theorem visible_dropSemicolons {front : List Char} (h : visible cs = front ++ [';'])
    (hlast : front.getLast? ≠ some ';') :
    visible (dropEndWhile (· = ';') (trim cs)) = front := by
  obtain ⟨semicolons, happend, hsemicolons⟩ := dropEndWhile_append (· = ';') (trim cs)
  have hvisible : visible (dropEndWhile (· = ';') (trim cs)) ++ semicolons = front ++ [';'] := by
    have hkept : visible semicolons = semicolons := by
      refine List.filter_eq_self.2 fun c hc => ?_
      rw [of_decide_eq_true (hsemicolons c hc)]
      decide
    rw [← h, ← visible_trim cs]
    conv_rhs => rw [happend, visible_append, hkept]
  obtain rfl | ⟨others, last, rfl⟩ := List.eq_nil_or_concat' semicolons
  · -- the last character of the trimmed text would be a semicolon that is kept
    rw [List.append_nil] at happend hvisible
    obtain hnil | ⟨init, c, hinit⟩ := List.eq_nil_or_concat' (trim cs)
    · rw [hnil] at hvisible
      cases (List.append_eq_nil_iff.1 hvisible.symm).2
    · have hc : (trim cs).getLast? = some c := by rw [hinit, List.getLast?_concat]
      have hkept := getLast?_dropEndWhile (· = ';') (trim cs) c (by rw [← happend, hc]; rfl)
      rw [← happend, hinit, visible_append, visible_cons (getLast?_trim cs c hc), visible_nil]
        at hvisible
      rw [(List.append_inj' hvisible rfl).2 |> List.singleton_inj.1] at hkept
      cases hkept
  · rw [← List.append_assoc] at hvisible
    have hfront := (List.append_inj' hvisible rfl).1
    obtain rfl | ⟨others, last', rfl⟩ := List.eq_nil_or_concat' others
    · rwa [List.append_nil] at hfront
    · have hlast' : last' = ';' := of_decide_eq_true (hsemicolons last' (by simp))
      refine absurd ?_ hlast
      rw [← hfront, hlast', ← List.append_assoc, List.getLast?_concat]

/-- The initializer of a variable, as the visible characters tell it. -/
theorem visible_variableTail (hcode : code text = text) (hextents : IsExtents extents)
    (h : visible text = extents ++ '=' :: (visible init ++ [';']))
    (hlast : (visible init).getLast? ≠ some ';') :
    visible ((variableTail text).2.getD "").toList = visible init := by
  have hbare : visible (trim (dropEndWhile (· = ';') (trim text))) =
      extents ++ '=' :: visible init := by
    rw [visible_trim]
    have hend : (extents ++ '=' :: visible init).getLast? ≠ some ';' := by
      rw [List.getLast?_append_of_ne_nil _ (List.cons_ne_nil _ _)]
      by_cases hinit : visible init = []
      · rw [hinit]
        exact nofun
      · rwa [← List.singleton_append, List.getLast?_append_of_ne_nil _ hinit]
    exact visible_dropSemicolons (h.trans (by simp)) hend
  obtain ⟨tail, htaken, htail⟩ := takeExtents_of_visible hextents (Nat.le_refl _) hbare
  obtain ⟨value, hvalue, hvisible⟩ := exists_trimStart_of_visible
    (by rw [visible_trim, visible_cons (by decide), htail] :
      visible (trim ('=' :: tail)) = '=' :: visible init)
  rw [trimStart_trim] at htaken hvalue
  unfold variableTail
  dsimp only
  rw [hcode, htaken, hvalue, toList_getD_ofList, ← hvisible]
  exact visible_trim value

/-- The lines that an initializer goes on over. -/
theorem exists_lines_of_initializer {inComment : Bool} {parts : List Line}
    (h : Block.initializer depth inComment rest = .ok (parts, left)) :
    ∃ passed, rest = passed ++ left ∧
      (inComment = false → (∀ l ∈ passed, code l = l) → parts = passed.map trim) := by
  induction rest generalizing depth inComment parts with
  | nil => cases h
  | cons raw rest ih =>
    rw [Block.initializer] at h
    dsimp only at h
    split at h
    · cases h
      refine ⟨[raw], rfl, ?_⟩
      rintro rfl hcode
      rw [strip_of_code (hcode raw List.mem_cons_self)]
      rfl
    · obtain ⟨⟨parts', left'⟩, hread, heq⟩ := exists_ok_of_map h
      cases heq
      obtain ⟨passed, rfl, hparts⟩ := ih hread
      refine ⟨raw :: passed, rfl, ?_⟩
      rintro rfl hcode
      obtain ⟨hraw, hpassed⟩ := List.forall_mem_cons.1 hcode
      rw [hparts (by rw [strip_of_code hraw]) hpassed, strip_of_code hraw]
      rfl

/-- The text of a statement gives its initializer, however its lines are joined. -/
theorem visible_variableTail_of_lines {lines : List Line} (hcode : code cs = cs)
    (hvisible : visible cs = visible lines.flatten)
    (hlines : joinLines lines = extents ++ '=' :: text)
    (hextents : IsExtents (visible extents)) (hcut : cutStatement 0 text = some (init, after))
    (hafter : allBlank after = true) :
    visible ((variableTail cs).2.getD "").toList = visible init := by
  refine visible_variableTail hcode hextents ?_ (getLast?_visible_of_cutStatement hcut)
  rw [hvisible, ← visible_joinLines, hlines, eq_of_cutStatement hcut, visible_append,
    visible_cons (by decide), visible_append, visible_cons (by decide),
    visible_eq_nil_iff.2 hafter]

/-- A variable that has been read has the initializer that its lines say. -/
theorem exists_lines_of_readVariable {member : Line} {head : Head} {variableHead : VariableHead}
    (h : readVariable member head rest = .ok (.var variableHead, left)) :
    ∃ passed, rest = passed ++ left ∧ ∀ extents text init after,
      (∀ l ∈ head.rest :: passed, code l = l) →
      joinLines (head.rest :: passed) = extents ++ '=' :: text → IsExtents (visible extents) →
      cutStatement 0 text = some (init, after) → allBlank after = true →
      visible (variableHead.initializer.getD "").toList = visible init := by
  rw [readVariable] at h
  dsimp only at h
  split at h
  · cases h
  · split at h
    · cases h
      -- the statement ends on its first line
      refine ⟨[], rfl, fun extents text init after hcode hlines hextents hcut hafter => ?_⟩
      exact visible_variableTail_of_lines (hcode head.rest List.mem_cons_self)
        (by rw [List.flatten_singleton]) hlines hextents hcut hafter
    · obtain ⟨r, hr, h⟩ := exists_ok_of_bind h
      obtain ⟨⟨parts, left'⟩, hread, rfl⟩ := exists_ok_of_map hr
      cases h
      obtain ⟨passed, rfl, hparts⟩ := exists_lines_of_initializer hread
      refine ⟨passed, rfl, fun extents text init after hcode hlines hextents hcut hafter => ?_⟩
      obtain ⟨hrest, hpassed⟩ := List.forall_mem_cons.1 hcode
      -- the lines below are trimmed, and trimming loses nothing visible
      have htrimmed : ∀ l ∈ passed.map trim, code l = l := by
        intro l hl
        obtain ⟨l, hmem, rfl⟩ := List.mem_map.1 hl
        exact code_of_isInfix (hpassed l hmem) (infix_trim l)
      refine visible_variableTail_of_lines ?_ ?_ hlines hextents hcut hafter
      · rw [hparts rfl hpassed]
        refine code_append hrest
          (code_cons_of_blank (by decide) (code_intercalate (by decide) htrimmed)) ?_
        rintro _ ⟨⟩
        decide
      · have hmap : visible (passed.map trim).flatten = visible (passed.map id).flatten :=
          visible_flatten_map fun l _ => visible_trim l
        rw [hparts rfl hpassed, visible_append, visible_cons_of_blank (by decide),
          visible_intercalate (by decide), hmap, List.map_id, ← visible_append]
        rfl

/-! ### What follows the name of a member -/

section Suffixes

variable {name tail symbol : List Char}

/-- What is left behind an operator is an end of the text. -/
theorem suffix_of_operatorSymbol? (h : operatorSymbol? cs = some (symbol, tail)) :
    tail <:+ cs := by
  unfold operatorSymbol? at h
  split at h
  · rename_i result hresult
    cases h
    obtain ⟨mark, -, hmark⟩ := List.exists_of_findSome?_eq_some hresult
    obtain ⟨rest, hrest, heq⟩ := Option.map_eq_some_iff.1 hmark
    cases heq
    exact suffix_of_after? hrest
  · dsimp only at h
    split at h
    · cases h
    · cases h
      exact List.drop_suffix _ cs

/-- What is left behind a name is an end of the text. -/
theorem suffix_of_memberName? (h : memberName? cs = some (name, tail)) : tail <:+ cs := by
  unfold memberName? at h
  split at h
  · rename_i result hresult
    cases h
    simp only [operatorName?, Option.bind_eq_bind, Option.bind_eq_some_iff] at hresult
    obtain ⟨behind, hbehind, ⟨symbol, rest⟩, hsymbol, heq⟩ := hresult
    cases heq
    exact (suffix_of_operatorSymbol? hsymbol).trans
      ((List.dropWhile_suffix isBlank).trans (suffix_of_after? hbehind))
  · split at h
    · cases h
    · cases h
      exact List.dropWhile_suffix isNameChar

/-- What is left behind a word of a type is an end of the text. -/
theorem suffix_of_typeWord? {word : List Char} (h : typeWord? cs = some (word, tail)) :
    tail <:+ cs := by
  unfold typeWord? at h
  split at h
  · cases h
  · obtain ⟨tail', hblanks, heq⟩ := Option.map_eq_some_iff.1 h
    cases heq
    exact (suffix_of_afterBlanks? hblanks).trans (List.dropWhile_suffix isTypeChar)

/-- What is left behind the head of a member is an end of the text that is read, at any number of
words. -/
theorem suffix_of_headFrom {fuel : Nat} {head : Head} (h : headFrom fuel cs = some head) :
    head.rest <:+ cs := by
  have hname : ∀ {cs : List Char} {head : Head},
      ((memberName? cs).map fun (name, rest) => (⟨[], name, rest⟩ : Head)) = some head →
      head.rest <:+ cs := by
    intro cs head h
    obtain ⟨⟨name, rest⟩, hmember, rfl⟩ := Option.map_eq_some_iff.1 h
    exact suffix_of_memberName? hmember
  induction fuel generalizing cs head with
  | zero => exact hname h
  | succ fuel ih =>
    rw [headFrom] at h
    split at h
    · rename_i word tail hword
      split at h
      · rename_i inner hinner
        cases h
        exact (ih hinner).trans (suffix_of_typeWord? hword)
      · exact hname h
    · exact hname h

theorem suffix_of_head? {head : Head} (h : head? cs = some head) : head.rest <:+ cs :=
  suffix_of_headFrom h

end Suffixes

end Member

/-! ## Steps -/

namespace Token

variable {mode : Mode} {c : Cursor} {next : Advance}

/-- **Initializers.**  A definition has the visible characters of its text, from behind its name or
its closed parameters to the last line that it runs over, and a variable those of its text between
the sign and the semicolon that ends its statement, when these texts have no comments and no
literals, and the lines of the variable end with the statement. -/
theorem initializer_of_step (h : step mode c = .ok next) :
    (∀ defined list doc value, next.token.statement = .definition defined list doc value →
      ∃ raw others left name parameters text, skipBlankLines c.rest = raw :: (others ++ left) ∧
        next.StopsAt c left ∧ Directive.RunsOver (trim raw :: others.map trim) left ∧
        Directive.Defines (trim raw) name parameters text ∧ defined = String.ofList name ∧
        list = parameters.map (String.ofList ∘ trim) ∧
        ((∀ l ∈ text :: others.map trim, Directive.IsPlainLine l) →
          visible (value.getD "").toList =
            visible ((text :: others.map trim).map Directive.uncontinued).flatten)) ∧
    ∀ head, mode.enumerators = false → next.token.statement = .var head →
      ∃ raw passed left member, skipBlankLines c.rest = raw :: (passed ++ left) ∧
        next.StopsAt c left ∧ Member.head? (Member.dropAttributes (trim raw)) = some member ∧
        member.rest <:+ Member.dropAttributes (trim raw) ∧
        ∀ extents text init after, (∀ l ∈ member.rest :: passed, code l = l) →
          joinLines (member.rest :: passed) = extents ++ '=' :: text →
          Member.IsExtents (visible extents) →
          Member.cutStatement 0 text = some (init, after) → allBlank after = true →
          visible (head.initializer.getD "").toList = visible init := by
  constructor
  · intro defined list doc value hdefinition
    obtain ⟨raw, rest, left, hskip, horigin, hstops⟩ :=
      exists_origin_of_step h (by rw [hdefinition]; rfl)
    rw [hdefinition] at horigin
    cases horigin with
    | definition hread =>
      obtain ⟨others, name, parameters, text, rfl, hruns, hdefines, hname, hlist, hvalue⟩ :=
        Directive.exists_defines_of_read hread
      exact ⟨raw, others, left, name, parameters, text, hskip, hstops, hruns, hdefines, hname,
        hlist, hvalue⟩
  · intro head hmode hvar
    obtain ⟨raw, rest, left, hskip, horigin, hstops⟩ :=
      exists_origin_of_step h (by rw [hvar]; rfl)
    rw [hvar] at horigin
    cases horigin with
    | enumerator henumerators =>
      rw [hmode] at henumerators
      cases henumerators
    | @member member _ _ _ hmember hread =>
      obtain ⟨passed, rfl, hvalue⟩ := Member.exists_lines_of_readVariable hread
      exact ⟨raw, passed, left, member, hskip, hstops, hmember, Member.suffix_of_head? hmember,
        hvalue⟩

/-- A definition whose value stands on two lines. -/
def scaleLines : List Line :=
  ["#define SCALE(x) ((x) * \\", "  10)"].map String.toList

/-- A variable whose initializer stands on two lines. -/
def sizesLines : List Line :=
  ["static const int sizes[2] = \x7b", "  1, 2 \x7d;"].map String.toList

/-- A macro over two lines and an array over two lines keep what they say. -/
theorem initializer_of_step_sizes :
    (∃ next value, step {} (.start 1 scaleLines) = .ok next ∧
      next.token.statement = .definition "SCALE" (some "x") none value ∧
      visible (value.getD "").toList = "((x)*10)".toList) ∧
    ∃ next head, step {} (.start 1 sizesLines) = .ok next ∧ next.token.statement = .var head ∧
      visible (head.initializer.getD "").toList = "\x7b1,2\x7d".toList := by
  constructor
  · obtain ⟨next, value, hstep, hdefinition⟩ : ∃ next value,
        step {} (.start 1 scaleLines) = .ok next ∧
          next.token.statement = .definition "SCALE" (some "x") none value := ⟨_, _, rfl, rfl⟩
    refine ⟨next, value, hstep, hdefinition, ?_⟩
    obtain ⟨raw, others, left, name, parameters, text, hskip, -, hruns, hdefines, -, -, hvalue⟩ :=
      (initializer_of_step hstep).1 _ _ _ _ hdefinition
    obtain ⟨rfl, hothers⟩ := List.cons.inj hskip
    obtain rfl : others = ["  10)".toList] := by
      cases others with
      | nil =>
        obtain rfl : left = _ := hothers.symm
        exact absurd (hruns.last (List.cons_ne_nil _ _) _ rfl) (by decide)
      | cons first others =>
        obtain ⟨rfl, hnil⟩ := List.cons.inj hothers
        rw [(List.append_eq_nil_iff.1 hnil.symm).1]
    have hline : '\n' ∉ text := by
      obtain ⟨_, _, -, -, -, hline⟩ := hdefines.line_eq
      intro hmem
      refine absurd (?_ : '\n' ∈ trim "#define SCALE(x) ((x) * \\".toList) (by decide)
      rw [show trim "#define SCALE(x) ((x) * \\".toList = _ from hline]
      exact List.mem_append_right _ hmem
    obtain ⟨rfl, rfl, rfl⟩ : name = "SCALE".toList ∧ parameters = some ['x'] ∧
        text = " ((x) * \\".toList := by
      have hfound := Directive.definition?_eq_some_iff.2 ⟨hdefines, hline⟩
      cases hfound
      exact ⟨rfl, rfl, rfl⟩
    rw [hvalue ?_]
    · decide
    · intro l hl
      rcases List.mem_pair.1 hl with rfl | rfl
      · exact ⟨by decide, by decide⟩
      · exact ⟨by decide, by decide⟩
  · obtain ⟨next, head, hstep, hvar, hrest⟩ : ∃ next head,
        step {} (.start 1 sizesLines) = .ok next ∧ next.token.statement = .var head ∧
          next.cursor.rest = [] := ⟨_, _, rfl, rfl, rfl⟩
    refine ⟨next, head, hstep, hvar, ?_⟩
    obtain ⟨raw, passed, left, member, hskip, hstops, hmember, -, hvalue⟩ :=
      (initializer_of_step hstep).2 head rfl hvar
    obtain ⟨rfl, hpassed⟩ := List.cons.inj hskip
    have hhead : Member.head? (Member.dropAttributes (trim
        "static const int sizes[2] = \x7b".toList)) = some
          ⟨["static".toList, "const".toList, "int".toList], "sizes".toList,
            "[2] = \x7b".toList⟩ := by
      decide +kernel
    obtain rfl := Option.some.inj (hmember.symm.trans hhead)
    obtain rfl : passed = ["  1, 2 \x7d;".toList] := by
      cases passed with
      | nil =>
        have hleft : skipBlankLines left = [] := hstops.rest_eq.symm.trans hrest
        rw [show left = _ from hpassed.symm] at hleft
        exact absurd hleft (by decide)
      | cons first passed =>
        obtain ⟨rfl, hnil⟩ := List.cons.inj hpassed
        rw [(List.append_eq_nil_iff.1 hnil.symm).1]
    have hinit := hvalue "[2] ".toList " \x7b\n  1, 2 \x7d;".toList " \x7b\n  1, 2 \x7d".toList []
      (by decide +kernel) rfl (@Member.IsExtents.cons ['2'] [] (by decide) .nil) rfl rfl
    rw [hinit]
    decide

/-- A definition of a literal. -/
def titleLine : Line := "#define TITLE \"Main\"".toList

/-- A definition on one line without comments, whose value is a literal, has no value. -/
theorem not_forall_initializer_of_step :
    ¬ ∀ (mode : Mode) (c : Cursor) (next : Advance) (defined : String)
      (list doc value : Option String) (raw : Line) (left : List Line) (name : List Char)
      (parameters : Option (List Char)) (text : List Char), step mode c = .ok next →
      next.token.statement = .definition defined list doc value →
      skipBlankLines c.rest = raw :: left → Directive.Defines (trim raw) name parameters text →
      endsWith ['\\'] (trim raw) = false → '/' ∉ text →
      visible (value.getD "").toList = visible text := by
  intro hall
  have hdefines : Directive.Defines titleLine "TITLE".toList none " \"Main\"".toList :=
    (Directive.definition?_eq_some_iff.1 rfl).1
  have hvalue := hall {} (.start 1 [titleLine]) _ "TITLE" none none none titleLine [] _ _ _ rfl rfl
    rfl hdefines rfl (by decide)
  exact absurd hvalue (by decide)

end Token

end HeaderApi
