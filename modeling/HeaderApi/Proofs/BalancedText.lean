import HeaderApi.Proofs.ConditionBalance

/-!
# The conditions of an amalgamation

The lines of an amalgamation between its guard and the end of it are balanced when the headers are,
and the system includes of a conditional part stand directly behind the directive that opens its
block.
-/

namespace HeaderApi

open Text Condition

namespace Part

variable {options : AmalgamOptions} {part : Part} {line : Line} {lines content : List Line}

/-! ## Directives -/

/-- A line that the next one continues. -/
def IsContinued (line : Line) : Prop := endsWith ['\\'] (trimEnd line) = true

/-- The lines of a whole directive that opens a condition, and the lines behind it: every line of
the directive but the last is continued, and the last one is not when a line follows. -/
structure IsDirective (directive rest : List Line) : Prop where
  opens : ∃ first others, directive = first :: others ∧ startsWith "#if".toList first = true
  continued : ∀ line ∈ directive.dropLast, IsContinued line
  complete : ∀ last ∈ directive.getLast?, IsContinued last → rest = []

/-- The two parts of a split are the lines that were split. -/
theorem splitDirective_append (lines : List Line) :
    (splitDirective lines).1 ++ (splitDirective lines).2 = lines := by
  induction lines with
  | nil => rfl
  | cons line rest ih =>
    rw [splitDirective]
    split
    · exact congrArg (line :: ·) ih
    · rfl

/-- The includes of a conditional part stand between its directive and the rest. -/
theorem conditionalContent_eq (part : Part) (content : List Line) :
    part.conditionalContent content =
      (splitDirective content).1 ++ part.includes.map systemInclude ++ (splitDirective content).2 :=
  rfl

theorem exists_splitDirective_cons (line : Line) (rest : List Line) :
    ∃ others, (splitDirective (line :: rest)).1 = line :: others := by
  rw [splitDirective]
  split
  · exact ⟨_, rfl⟩
  · exact ⟨[], rfl⟩

/-- Every line of a directive but the last one is continued. -/
theorem splitDirective_continued (lines : List Line) :
    ∀ line ∈ (splitDirective lines).1.dropLast, IsContinued line := by
  induction lines with
  | nil => exact List.forall_mem_nil _
  | cons line rest ih =>
    rw [splitDirective]
    split
    · rename_i hcond
      obtain ⟨hcontinued, hrest⟩ := Bool.and_eq_true_iff.1 hcond
      obtain ⟨next, rest, rfl⟩ := List.exists_cons_of_ne_nil (of_decide_eq_true hrest)
      obtain ⟨others, hothers⟩ := exists_splitDirective_cons next rest
      dsimp only
      rw [hothers, List.dropLast_cons_of_ne_nil (List.cons_ne_nil _ _), ← hothers]
      exact List.forall_mem_cons.2 ⟨hcontinued, ih⟩
    · exact List.forall_mem_nil _

/-- A directive ends with a continued line only when nothing follows. -/
theorem splitDirective_complete (lines : List Line) :
    ∀ last ∈ (splitDirective lines).1.getLast?, IsContinued last →
      (splitDirective lines).2 = [] := by
  induction lines with
  | nil => exact fun _ _ _ => rfl
  | cons line rest ih =>
    rw [splitDirective]
    split
    · rename_i hcond
      obtain ⟨next, rest, rfl⟩ :=
        List.exists_cons_of_ne_nil (of_decide_eq_true (Bool.and_eq_true_iff.1 hcond).2)
      obtain ⟨others, hothers⟩ := exists_splitDirective_cons next rest
      dsimp only
      rw [hothers, List.getLast?_cons_cons, ← hothers]
      exact ih
    · rename_i hcond
      rintro _ ⟨⟩ hcontinued
      by_contra hrest
      exact hcond (Bool.and_eq_true_iff.2 ⟨hcontinued, decide_eq_true hrest⟩)

/-- A split at a line that opens a condition is one at a whole directive. -/
theorem isDirective_splitDirective {first : Line} (h : startsWith "#if".toList first = true)
    (rest : List Line) :
    IsDirective (splitDirective (first :: rest)).1 (splitDirective (first :: rest)).2 := by
  obtain ⟨others, hothers⟩ := exists_splitDirective_cons first rest
  exact ⟨⟨first, others, hothers, h⟩, splitDirective_continued _, splitDirective_complete _⟩

/-! ## Includes -/

/-- The name of an include has no line feed in it. -/
theorem newline_not_mem {name : String} (h : IsIncludeName name) : '\n' ∉ name.toList := by
  intro hmem
  have hchar := h.2 '\n' hmem
  exact absurd hchar (by decide)

/-- An include directive has no line feed in it when the name has none. -/
theorem newline_not_mem_systemInclude {name : String} (h : '\n' ∉ name.toList) :
    '\n' ∉ systemInclude name := by
  unfold systemInclude
  simp only [List.mem_append, not_or]
  exact ⟨⟨by decide, h⟩, by decide⟩

theorem change?_systemInclude (name : String) : change? (systemInclude name) = none := rfl

theorem changes_includes (names : List String) : changes (names.map systemInclude) = [] := by
  rw [changes, List.filterMap_map]
  exact List.filterMap_eq_nil_iff.2 fun name _ => change?_systemInclude name

theorem isFlush_systemInclude {name : String} (h : '\n' ∉ name.toList) :
    IsFlush (systemInclude name) :=
  ⟨newline_not_mem_systemInclude h, fun _ => rfl⟩

/-- Quoted includes are about no condition. -/
theorem changes_filter (lines : List Line) :
    changes (lines.filter (quotedInclude? · = none)) = changes lines := by
  have hnone : ∀ line, quotedInclude? line ≠ none → change? line = none := by
    intro line hquoted
    have hinclude : include? line ≠ none := by
      intro hnone
      rw [quotedInclude?, hnone] at hquoted
      exact hquoted rfl
    exact change?_eq_none (Bool.eq_false_iff.2 fun h => hinclude (include?_of_if h))
      (Bool.eq_false_iff.2 fun h => hinclude (include?_of_endif h))
  induction lines with
  | nil => rfl
  | cons line lines ih =>
    by_cases hquoted : quotedInclude? line = none
    · rw [List.filter_cons_of_pos (by simp [hquoted]), ← List.singleton_append, changes_append,
        ih, ← changes_append, List.singleton_append]
    · rw [List.filter_cons_of_neg (by simpa using hquoted), ih, changes,
        changes, List.filterMap_cons_none (hnone line hquoted)]

/-! ## Balanced parts -/

/-- A part that is read from a header with balanced conditions: an unconditional part has balanced
content, and in the header of a conditional part the depth, from the guard on, first comes back to
zero at the last line that closes a condition. -/
structure FromBalanced (options : AmalgamOptions) (lines : List Line) (part : Part) : Prop where
  read : (read options part.name lines).outcome = .ok part
  flush : ∀ line ∈ lines, IsFlush line
  balanced : part.conditional = false → ∀ content, part.content = some content → Balanced content
  closes : part.conditional = true → ClosesAtLastEndif (fromGuard lines)

theorem FromBalanced.takesContent (h : FromBalanced options lines part) :
    TakesContent options (afterGuard lines) part :=
  (readFrom_of_read h.read).content

/-- The lines of the content of a part are among the lines it was read from. -/
theorem FromBalanced.flush_content (h : FromBalanced options lines part)
    (hcontent : part.content = some content) : ∀ line ∈ content, IsFlush line :=
  fun line hline => h.flush line (afterGuard_subset lines line
    (h.takesContent.subset hcontent line hline))

/-- The content of a conditional part is balanced, and it begins with a condition. -/
theorem FromBalanced.under (h : FromBalanced options lines part)
    (hconditional : part.conditional = true) :
    ∃ first rest, part.content = some (first :: rest) ∧ startsWith "#if".toList first = true ∧
      Balanced (first :: rest) := by
  cases h.takesContent with
  | missing hplain hcontent =>
    rw [hplain] at hconditional
    cases hconditional
  | inside before hlines hread hplain hcontent =>
    rw [hplain] at hconditional
    cases hconditional
  | @under before rest body first hlines hbefore hfirst hbody hconditional hcontent =>
    -- the last condition that is closed is the guard, so the body closes before it
    have hbalanced : Balanced (first :: body) := by
      rcases fromGuard_cases lines with ⟨-, hnil⟩ | ⟨ifndef, define, hguard, hifndef, hdefine⟩
      · rw [hnil] at hlines
        exact absurd hlines.symm (List.append_ne_nil_of_right_ne_nil _ (List.cons_ne_nil _ _))
      · have hcloses := h.closes hconditional
        rw [hguard, hlines] at hcloses
        exact balanced_of_closesAtLastEndif hcloses hifndef hdefine hbefore hbody
    have hkept : quotedInclude? first = none := by
      rw [quotedInclude?, include?_of_if hfirst]
    -- the quoted includes that are left out open and close nothing
    have hchanges := changes_filter (first :: body)
    rw [List.filter_cons_of_pos (by simp [hkept])] at hcontent hchanges
    exact ⟨first, _, hcontent, hfirst, hbalanced.congr hchanges⟩

/-- The content of a part closes every condition that it opens. -/
theorem FromBalanced.balanced_content (h : FromBalanced options lines part)
    (hcontent : part.content = some content) : Balanced content := by
  cases hconditional : part.conditional with
  | false => exact h.balanced hconditional content hcontent
  | true =>
    obtain ⟨first, rest, hunder, -, hbalanced⟩ := h.under hconditional
    cases hunder.symm.trans hcontent
    exact hbalanced

/-- The lines with which the block of a part is made. -/
def blockLines (part : Part) (content : List Line) : List Line :=
  if part.conditional then part.conditionalContent content else content

/-- A part with a block has a content, and the block is made of the lines of that content. -/
theorem exists_content_of_block? {text : List Char} (h : part.block? = some text) :
    ∃ content, part.content = some content ∧ text = block (part.blockLines content) := by
  obtain ⟨content, hcontent, rfl⟩ := Option.map_eq_some_iff.1 h
  exact ⟨content, (Option.filter_eq_some_iff.1 hcontent).1, rfl⟩

theorem FromBalanced.newline_not_mem_includes (h : FromBalanced options lines part) :
    ∀ name ∈ part.includes, '\n' ∉ name.toList :=
  fun name hname => newline_not_mem (isOwnInclude_of_read h.read name hname).1

/-- The lines of a block stand at the front, like those of the content. -/
theorem FromBalanced.flush_blockLines (h : FromBalanced options lines part)
    (hcontent : part.content = some content) :
    ∀ line ∈ part.blockLines content, IsFlush line := by
  intro line hline
  unfold blockLines at hline
  split at hline
  · rw [conditionalContent_eq] at hline
    rcases List.mem_append.1 hline with hline | hrest
    · rcases List.mem_append.1 hline with hdirective | hinclude
      · refine h.flush_content hcontent line ?_
        rw [← splitDirective_append content]
        exact List.mem_append_left _ hdirective
      · obtain ⟨name, hname, rfl⟩ := List.mem_map.1 hinclude
        exact isFlush_systemInclude (h.newline_not_mem_includes name hname)
    · refine h.flush_content hcontent line ?_
      rw [← splitDirective_append content]
      exact List.mem_append_right _ hrest
  · exact h.flush_content hcontent line hline

/-- The includes put into a block change nothing about its conditions. -/
theorem changes_blockLines (part : Part) (content : List Line) :
    changes (part.blockLines content) = changes content := by
  unfold blockLines
  split
  · rw [conditionalContent_eq]
    conv_rhs => rw [← splitDirective_append content]
    rw [changes_append, changes_append, changes_append, changes_includes, List.append_nil]
  · rfl

/-- The block of such a part is balanced. -/
theorem FromBalanced.balanced_block (h : FromBalanced options lines part) {text : List Char}
    (hblock : part.block? = some text) : Balanced (pieces '\n' text) := by
  obtain ⟨content, hcontent, rfl⟩ := exists_content_of_block? hblock
  refine (h.balanced_content hcontent).congr ?_
  rw [changes_block (h.flush_blockLines hcontent), changes_blockLines]

/-- The block of a conditional part begins with a whole directive, and directly behind it stand the
system includes of the part. -/
def HasIncludesBehindDirective (part : Part) (text : List Char) : Prop :=
  ∃ directive rest, part.content = some (directive ++ rest) ∧ IsDirective directive rest ∧
    (part.includes ≠ [] →
      ∃ tail, pieces '\n' text = directive ++ part.includes.map systemInclude ++ tail)

/-- A conditional part has its includes right behind the directive that opens it. -/
theorem FromBalanced.hasIncludesBehindDirective (h : FromBalanced options lines part)
    (hconditional : part.conditional = true) :
    ∃ text, part.block? = some text ∧ part.HasIncludesBehindDirective text := by
  obtain ⟨first, rest, hcontent, hfirst, -⟩ := h.under hconditional
  have hblock : part.block? = some (block (part.conditionalContent (first :: rest))) := by
    rw [block?, content?, hcontent, Option.filter_some_pos (by simp), Option.map_some,
      if_pos hconditional]
  refine ⟨_, hblock, _, _, ?_, isDirective_splitDirective hfirst rest, fun hne => ?_⟩
  · rw [splitDirective_append, hcontent]
  · obtain ⟨others, hothers⟩ := exists_splitDirective_cons first rest
    obtain ⟨names, name, hnames⟩ : ∃ names name, part.includes = names ++ [name] :=
      ⟨_, _, (List.dropLast_concat_getLast hne).symm⟩
    have hflush := h.flush_blockLines hcontent
    rw [blockLines, if_pos hconditional, conditionalContent_eq] at hflush
    -- a hash sign and a closing mark stand at the ends of what is in front of the rest
    obtain ⟨tail, htail⟩ := startsWith_iff.1 hfirst
    have hhead : (joinLines ((splitDirective (first :: rest)).1 ++
        part.includes.map systemInclude)).head? = some '#' := by
      rw [hothers, htail]
      exact head?_joinLines _ _ _
    have hlast : (joinLines ((splitDirective (first :: rest)).1 ++
        part.includes.map systemInclude)).getLast? = some '>' := by
      rw [hnames, List.map_append, ← List.append_assoc]
      exact getLast?_joinLines _ _ _
    have hfeed : ∀ line ∈ (splitDirective (first :: rest)).1 ++ part.includes.map systemInclude,
        '\n' ∉ line := fun line hline => (hflush line (List.mem_append_left _ hline)).1
    rw [block, conditionalContent_eq]
    refine exists_pieces_trim_append hfeed (fun hnil => ?_) (fun c hc => ?_) (fun c hc => ?_) _
    · rw [hnil] at hhead
      cases hhead
    · cases hhead.symm.trans hc
      decide
    · cases hlast.symm.trans hc
      decide

end Part

/-! ## Amalgamations -/

/-- Options whose texts are free of line feeds. -/
structure AmalgamOptions.IsOneLine (options : AmalgamOptions) : Prop where
  title : '\n' ∉ options.title.toList
  guard : '\n' ∉ options.guard.toList
  namespaceName : '\n' ∉ options.namespaceName.toList
  masterInclude : '\n' ∉ options.masterInclude.toList

namespace Collection

variable {options : AmalgamOptions} {c : Collection} {ordered : List Part}

/-- The line of the title. -/
def titleLine (options : AmalgamOptions) : Line := "// ".toList ++ options.title.toList

/-- The line that opens the guard. -/
def guardLine (options : AmalgamOptions) : Line := "#ifndef ".toList ++ options.guard.toList

/-- The line that closes the guard. -/
def endLine (options : AmalgamOptions) : Line := "#endif // ".toList ++ options.guard.toList

/-- The pieces inside the guard. -/
def insidePieces (options : AmalgamOptions) (includes : List String) (parts : List Part) :
    List (List Char) :=
  ["#define ".toList ++ options.guard.toList, []] ++
    Header.block (includes.map systemInclude) ++ [namespaceOpen options.namespaceName, []] ++
    Part.plainBlocks parts ++ [namespaceClose options.namespaceName, []] ++
    Part.conditionalBlocks parts

/-- The lines of a printed header are its title, its guard, what stands inside and its end line. -/
theorem pieces_eq (options : AmalgamOptions) (includes : List String) (parts : List Part) :
    pieces options includes parts =
      titleLine options :: guardLine options :: insidePieces options includes parts ++
        [endLine options] :=
  rfl

theorem newline_not_mem_append {front back : List Char} (hfront : '\n' ∉ front)
    (hback : '\n' ∉ back) : '\n' ∉ front ++ back :=
  fun hmem => (List.mem_append.1 hmem).elim hfront hback

/-- A text of one line that is about no condition is balanced. -/
theorem balanced_line {line : Line} (hfeed : '\n' ∉ line) (h : change? line = none) :
    Balanced (Text.pieces '\n' line) := by
  rw [pieces_of_not_mem hfeed]
  exact Balanced.singleton h

theorem balanced_empty : Balanced (Text.pieces '\n' []) := balanced_line List.not_mem_nil rfl

/-- The block of includes opens no condition. -/
theorem balanced_includes {includes : List String}
    (h : ∀ name ∈ includes, '\n' ∉ name.toList) :
    ∀ text ∈ Header.block (includes.map systemInclude), Balanced (Text.pieces '\n' text) := by
  intro text htext
  unfold Header.block at htext
  split at htext
  · cases htext
  · rcases List.mem_append.1 htext with htext | htext
    · obtain ⟨name, hname, rfl⟩ := List.mem_map.1 htext
      exact balanced_line (Part.newline_not_mem_systemInclude (h name hname))
        (Part.change?_systemInclude name)
    · rw [List.mem_singleton.1 htext]
      exact balanced_empty

/-- Every block closes the conditions that it opens. -/
theorem balanced_marked {parts : List Part}
    (h : ∀ part ∈ parts, ∃ lines, part.FromBalanced options lines) :
    ∀ text ∈ (Part.marked parts).map Prod.snd, Balanced (Text.pieces '\n' text) := by
  intro text htext
  rw [Part.map_snd_marked] at htext
  obtain ⟨block, hblock, htext⟩ := List.mem_flatMap.1 htext
  obtain ⟨part, hpart, hblock⟩ := List.mem_filterMap.1 hblock
  rcases List.mem_cons.1 htext with rfl | hempty
  · obtain ⟨lines, hlines⟩ := h part hpart
    exact hlines.balanced_block hblock
  · rw [List.mem_singleton.1 hempty]
    exact balanced_empty

/-- Every piece inside the guard is balanced. -/
theorem balanced_insidePieces (hoptions : options.IsOneLine)
    (hincludes : ∀ name ∈ c.includes, '\n' ∉ name.toList)
    (hparts : ∀ part ∈ ordered, ∃ lines, part.FromBalanced options lines) :
    ∀ text ∈ insidePieces options c.includes ordered, Balanced (Text.pieces '\n' text) := by
  have hgroup : ∀ p : Part → Bool, ∀ part ∈ ordered.filter p,
      ∃ lines, part.FromBalanced options lines :=
    fun p part hpart => hparts part (List.mem_filter.1 hpart).1
  have hpair : ∀ line : Line, '\n' ∉ line → change? line = none →
      ∀ text ∈ [line, []], Balanced (Text.pieces '\n' text) := by
    intro line hfeed hnone
    refine List.forall_mem_cons.2 ⟨balanced_line hfeed hnone, ?_⟩
    exact List.forall_mem_singleton.2 balanced_empty
  unfold insidePieces
  simp only [List.forall_mem_append]
  refine ⟨⟨⟨⟨⟨?_, balanced_includes hincludes⟩, ?_⟩, ?_⟩, ?_⟩, ?_⟩
  · exact hpair _ (newline_not_mem_append (by decide) hoptions.guard) rfl
  · exact hpair _ (newline_not_mem_append (newline_not_mem_append (by decide)
      hoptions.namespaceName) (by decide)) rfl
  · rw [← Part.map_snd_marked_plain]
    exact balanced_marked (hgroup _)
  · exact hpair _ (newline_not_mem_append (by decide) hoptions.namespaceName) rfl
  · rw [← Part.map_snd_marked_conditional]
    exact balanced_marked (hgroup _)

/-- No include of a printed header has a line feed in it. -/
theorem newline_not_mem_includesOf {parts : List Part} (hoptions : options.IsOneLine)
    (hparts : ∀ part ∈ parts, ∃ lines, part.FromBalanced options lines) :
    ∀ name ∈ includesOf options parts, '\n' ∉ name.toList := by
  intro name hname
  unfold includesOf at hname
  rcases List.mem_append.1 hname with hname | hname
  · rw [mem_insertTexts, or_iff_left List.not_mem_nil] at hname
    obtain ⟨part, hpart, hname⟩ := List.mem_flatMap.1 hname
    obtain ⟨lines, hlines⟩ := hparts part (List.mem_filter.1 hpart).1
    exact hlines.newline_not_mem_includes name hname
  · split at hname
    · cases hname
    · rw [List.mem_singleton.1 hname]
      exact hoptions.masterInclude

/-- The lines of a text that is printed. -/
theorem pieces_text (hoptions : options.IsOneLine) (includes : List String) (parts : List Part) :
    Text.pieces '\n' (joinLines (pieces options includes parts) ++ ['\n']) =
      titleLine options :: guardLine options ::
        (insidePieces options includes parts).flatMap (Text.pieces '\n') ++
          [endLine options, []] := by
  have htitle : '\n' ∉ titleLine options := newline_not_mem_append (by decide) hoptions.title
  have hguard : '\n' ∉ guardLine options := newline_not_mem_append (by decide) hoptions.guard
  have hend : '\n' ∉ endLine options := newline_not_mem_append (by decide) hoptions.guard
  have hne : pieces options includes parts ≠ [] := List.cons_ne_nil _ _
  rw [pieces_append, pieces_joinLines hne, pieces_eq]
  simp only [List.flatMap_append, List.flatMap_cons, List.flatMap_nil, pieces_of_not_mem htitle,
    pieces_of_not_mem hguard, pieces_of_not_mem hend, List.append_assoc, pieces_nil]
  rfl

/-- **The conditions of an amalgamation are balanced.**  Let the parts of a collection be read from
headers with balanced conditions, and let its system includes be some of theirs and the master
include.  From the line that opens the guard on, one condition at least is open until the last line
closes the guard, and there all are closed.  The block of each conditional part stands in the text,
and it begins with the whole directive that opens it, directly followed by the system includes of
the part. -/
theorem print_balanced (hoptions : options.IsOneLine)
    (hincludes : c.includes ⊆ includesOf options c.parts)
    (hparts : ∀ part ∈ c.parts, ∃ lines, part.FromBalanced options lines)
    (horder : Part.order c.parts = .ok ordered) :
    ∃ text inside, print options c = .ok text ∧
      Text.pieces '\n' text =
        titleLine options :: guardLine options :: inside ++ [endLine options, []] ∧
      (∀ front, front <+: inside →
        1 ≤ depth (titleLine options :: guardLine options :: front)) ∧
      depth (titleLine options :: guardLine options :: inside ++ [endLine options]) = 0 ∧
      ((c.parts.map Part.name).Nodup → ordered.Perm c.parts) ∧
      ∀ part ∈ ordered, part.conditional = true → ∃ block before after,
        part.block? = some block ∧
          Text.pieces '\n' text = before ++ Text.pieces '\n' block ++ after ∧
          part.HasIncludesBehindDirective block := by
  have hordered : ∀ part ∈ ordered, ∃ lines, part.FromBalanced options lines :=
    fun part hpart => hparts part (Part.orderFrom_subset horder part hpart)
  have hnames : ∀ name ∈ c.includes, '\n' ∉ name.toList :=
    fun name hname => newline_not_mem_includesOf hoptions hparts name (hincludes hname)
  -- between the two lines of the guard stand pieces that are balanced one by one
  have hbalanced : Balanced ((insidePieces options c.includes ordered).flatMap
      (Text.pieces '\n')) :=
    Balanced.flatMap (balanced_insidePieces hoptions hnames hordered)
  -- the guard is one condition around them
  have hdepth : ∀ lines, depth (titleLine options :: guardLine options :: lines) =
      1 + depth lines := by
    intro lines
    have htitle : change? (titleLine options) = none := rfl
    have hguard : change? (guardLine options) = some 1 := rfl
    rw [depth_cons_of_none htitle, depth_cons hguard]
  have hlines := pieces_text hoptions c.includes ordered
  refine ⟨_, _, ?_, hlines, fun front hfront => ?_, ?_, fun hnodup => Part.order_perm hnodup horder,
    fun part hpart hconditional => ?_⟩
  · rw [print, horder]
    rfl
  · have hnonneg := hbalanced.nonneg front hfront
    rw [hdepth]
    omega
  · have hend : depth [endLine options] = -1 := rfl
    rw [List.cons_append, List.cons_append, hdepth, depth_append, hbalanced.depth_eq_zero, hend]
    rfl
  · -- the block of a part is one of the pieces, and its lines stay together
    obtain ⟨lines, hlines'⟩ := hordered part hpart
    obtain ⟨block, hblock, hbehind⟩ := hlines'.hasIncludesBehindDirective hconditional
    obtain ⟨i, text, htext, hplace⟩ := exists_blockAt options c.includes
      (mem_emitted hpart (by rw [hblock]; rfl))
    cases htext.symm.trans hblock
    have hmem := List.mem_map_of_mem (f := Prod.snd) (List.mem_of_getElem? hplace)
    rw [map_snd_layout] at hmem
    obtain ⟨before, after, hsplit⟩ := List.append_of_mem hmem
    refine ⟨block, before.flatMap (Text.pieces '\n'), after.flatMap (Text.pieces '\n') ++ [[]],
      hblock, ?_, hbehind⟩
    have hne : pieces options c.includes ordered ≠ [] := List.cons_ne_nil _ _
    rw [pieces_append, pieces_joinLines hne, hsplit, List.flatMap_append, List.flatMap_cons,
      pieces_nil, List.append_assoc, List.append_assoc, List.append_assoc]

/-- An unconditional header with a condition inside its namespace. -/
def rectLines : List Line :=
  ["#ifndef RECT_H_", "#define RECT_H_", "namespace SDL \x7b", "#if WIDE", "using Width = long;",
    "#endif", "\x7d // namespace SDL", "#endif"].map String.toList

/-- The part of this header. -/
def rectPart : Part where
  name := "rect.hpp"
  content := some (["#if WIDE", "using Width = long;", "#endif"].map String.toList)

/-- A header under a condition on two lines, with a system include of its own. -/
def winLines : List Line :=
  ["#ifndef WIN_H_", "#define WIN_H_", "#include <windows.h>", "#include \"rect.hpp\"",
    "#if defined(WIN) \\", "  && WIDE", "void open();", "#endif", "#endif"].map String.toList

/-- The part of this header. -/
def winPart : Part where
  name := "win.hpp"
  deps := ["rect.hpp"]
  includes := ["windows.h"]
  conditional := true
  content := some (["#if defined(WIN) \\", "  && WIDE", "void open();", "#endif"].map String.toList)

theorem fromBalanced_rectPart : rectPart.FromBalanced {} rectLines where
  read := rfl
  flush := by decide +kernel
  balanced := by
    rintro - _ ⟨⟩
    decide +kernel
  closes := by
    rintro ⟨⟩

theorem fromBalanced_winPart : winPart.FromBalanced {} winLines where
  read := rfl
  flush := by decide +kernel
  balanced := by
    rintro ⟨⟩
  closes := by
    intro
    refine ⟨winLines.dropLast, "#endif".toList, [], by decide +kernel, by decide +kernel,
      List.forall_mem_nil _, by decide +kernel, fun front hfront => ?_⟩
    have hall : ∀ front ∈ winLines.dropLast.inits, front ≠ [] → depth front ≠ 0 := by
      decide +kernel
    exact hall front ((List.mem_inits front _).2 hfront)

/-- A conditional part with a continued directive: the includes stand behind both of its lines. -/
theorem print_balanced_win :
    AmalgamOptions.IsOneLine {} ∧ ["SDL3/SDL.h"] ⊆ includesOf {} [winPart, rectPart] ∧
      (∀ part ∈ [winPart, rectPart], ∃ lines, part.FromBalanced {} lines) ∧
      Part.order [winPart, rectPart] = .ok [rectPart, winPart] ∧
      ∃ text inside block before after tail,
        print {} ⟨["SDL3/SDL.h"], [winPart, rectPart]⟩ = .ok text ∧
        Text.pieces '\n' text = titleLine {} :: guardLine {} :: inside ++ [endLine {}, []] ∧
        (∀ front, front <+: inside → 1 ≤ depth (titleLine {} :: guardLine {} :: front)) ∧
        depth (titleLine {} :: guardLine {} :: inside ++ [endLine {}]) = 0 ∧
        Text.pieces '\n' text = before ++ Text.pieces '\n' block ++ after ∧
        Text.pieces '\n' block =
          ["#if defined(WIN) \\".toList, "  && WIDE".toList] ++
            [systemInclude "windows.h"] ++ tail := by
  have hoptions : AmalgamOptions.IsOneLine {} :=
    ⟨by decide, by decide, by decide, by decide⟩
  have hincludes : ["SDL3/SDL.h"] ⊆ includesOf {} [winPart, rectPart] := by decide
  have hparts : ∀ part ∈ [winPart, rectPart], ∃ lines, part.FromBalanced {} lines := by
    refine List.forall_mem_cons.2 ⟨⟨winLines, fromBalanced_winPart⟩, ?_⟩
    exact List.forall_mem_singleton.2 ⟨rectLines, fromBalanced_rectPart⟩
  have horder : Part.order [winPart, rectPart] = .ok [rectPart, winPart] := by decide +kernel
  obtain ⟨text, inside, hprint, hlines, hopen, hclosed, -, hblocks⟩ :=
    print_balanced (c := ⟨["SDL3/SDL.h"], [winPart, rectPart]⟩) hoptions hincludes hparts horder
  obtain ⟨block, before, after, hblock, hplace, -⟩ := hblocks winPart (by decide +kernel) rfl
  refine ⟨hoptions, hincludes, hparts, horder, text, inside, block, before, after,
    ["void open();".toList, "#endif".toList], hprint, hlines, hopen, hclosed, hplace, ?_⟩
  obtain rfl : _ = block := Option.some.inj hblock
  decide +kernel

end Collection

end HeaderApi
