import HeaderApi.Proofs.Blocks
import HeaderApi.Proofs.EmissionOrder
import HeaderApi.Proofs.ReadParts

/-!
# Amalgamations of amalgamations

An amalgamation of unconditional headers is a header of the layout that is read: its guard, its
system includes and its namespace are found again, and its blocks, one behind the other, are one
block of the same text.  So when it is collected and printed it gives the same text again.
-/

namespace HeaderApi

open Text

namespace Part

variable {options : AmalgamOptions} {part : Part} {content : List Line}

/-! ## Content that is read again -/

/-- Content of an unconditional part that can be printed and read again: it has a visible character,
no line of it is broken, and none begins like the end of the namespace. -/
structure IsRereadable (options : AmalgamOptions) (content : List Line) : Prop where
  visible : ∃ line ∈ content, ∃ c ∈ line, isBlank c = false
  unbroken : ∀ line ∈ content, IsUnbroken line
  inside : ∀ line ∈ content,
    startsWith (namespaceClose options.namespaceName) (trimStart line) = false

/-- A content is cut into its own lines again. -/
theorem IsRereadable.pieces_joinLines (h : IsRereadable options content) :
    pieces '\n' (joinLines content) = content := by
  have hne : content ≠ [] := by
    rintro rfl
    obtain ⟨line, hline, -⟩ := h.visible
    cases hline
  rw [Text.pieces_joinLines hne,
    flatMap_pieces fun line hline => (h.unbroken line hline).newline_not_mem]

/-- The lines of the block are not broken either, and none begins like the end of the namespace. -/
theorem IsRereadable.block_lines (h : IsRereadable options content) :
    ∀ line ∈ pieces '\n' (block content), IsUnbroken line ∧
      startsWith (namespaceClose options.namespaceName) line = false := by
  intro line hline
  obtain ⟨front, back, hfront, -, hmem⟩ := exists_mem_pieces_trim hline
  rw [h.pieces_joinLines] at hmem
  have hunbroken := h.unbroken _ hmem
  refine ⟨fun c hc => hunbroken c (List.mem_append_left _ (List.mem_append_right _ hc)), ?_⟩
  refine Bool.eq_false_iff.2 fun hclose => ?_
  obtain ⟨rest, rfl⟩ := startsWith_iff.1 hclose
  have hinside := h.inside _ hmem
  -- the brace at the front of the line is visible
  rw [List.append_assoc, trimStart_append_of_blank hfront, List.append_assoc] at hinside
  have hbrace : trimStart (namespaceClose options.namespaceName ++ (rest ++ back)) =
      namespaceClose options.namespaceName ++ (rest ++ back) := rfl
  rw [hbrace, startsWith_iff.2 ⟨_, rfl⟩] at hinside
  cases hinside

/-- A block of a content begins and ends with visible characters. -/
theorem IsRereadable.block_visible (h : IsRereadable options content) :
    block content ≠ [] ∧ trim (block content) = block content := by
  obtain ⟨line, hline, c, hc, hvisible⟩ := h.visible
  have hmem : c ∈ joinLines content := by
    rw [← h.pieces_joinLines] at hline
    exact mem_of_mem_pieces hline hc
  exact ⟨trim_ne_nil hmem hvisible, trim_eq_self (head?_trim _) (getLast?_trim _)⟩

/-- The name of an include stands on one line. -/
theorem isUnbroken_of_isIncludeName {name : String} (h : IsIncludeName name) :
    IsUnbroken name.toList := by
  intro c hc
  refine Bool.eq_false_iff.2 fun hseparator => ?_
  have hmem : c.toNat ∈ [10, 11, 12, 13, 28, 29, 30, 0x85, 0x2028, 0x2029] := by
    simp only [isSeparator, Bool.or_eq_true, Bool.and_eq_true, decide_eq_true_eq, beq_iff_eq]
      at hseparator
    simp only [List.mem_cons, List.not_mem_nil, or_false]
    omega
  have hnone : ∀ n ∈ [10, 11, 12, 13, 28, 29, 30, 0x85, 0x2028, 0x2029],
      isIncludeChar (Char.ofNat n) = false := by
    decide +kernel
  have hchar := hnone c.toNat hmem
  rw [Char.ofNat_toNat, h.2 c hc] at hchar
  cases hchar

theorem isUnbroken_systemInclude {name : String} (h : IsIncludeName name) :
    IsUnbroken (systemInclude name) :=
  (IsUnbroken.append (by decide) (isUnbroken_of_isIncludeName h)).append (by decide)

/-! ## Parts without condition -/

/-- Without conditional parts the plain blocks are those of all parts, each with a blank line behind
it. -/
theorem plainBlocks_eq {parts : List Part} (h : ∀ part ∈ parts, part.conditional = false) :
    plainBlocks parts = (parts.filterMap block?).flatMap fun text => [text, []] := by
  have hall : parts.filter (!·.conditional) = parts :=
    List.filter_eq_self.2 fun part hpart => by rw [h part hpart]; rfl
  rw [← map_snd_marked_plain, hall, map_snd_marked]

theorem conditionalBlocks_eq_nil {parts : List Part}
    (h : ∀ part ∈ parts, part.conditional = false) : conditionalBlocks parts = [] := by
  have hnone : parts.filter Part.conditional = [] :=
    List.filter_eq_nil_iff.2 fun part hpart => by rw [h part hpart]; exact Bool.false_ne_true
  rw [conditionalBlocks, hnone]
  rfl

/-- The block of a plain part is that of its content. -/
theorem block?_of_plain (h : part.conditional = false) :
    part.block? = part.content?.map block := by
  rw [block?, h]
  rfl

/-- A part that needs no other stands alone. -/
theorem order_singleton (h : part.deps = []) : order [part] = .ok [part] := by
  have hready : isReady [] part = true := by
    rw [isReady, h]
    rfl
  simp [order, orderFrom, sortByName, hready, Except.map]

end Part

/-- Sorted texts without duplicates are not changed when they are sorted again. -/
theorem insertTexts_of_pairwise {texts : List String} (h : texts.Pairwise (· < ·)) :
    insertTexts texts [] = texts := by
  have hsorted : (insertTexts texts []).Pairwise (· < ·) := pairwise_insertTexts List.Pairwise.nil
  refine List.Perm.eq_of_pairwise (fun a b _ _ hab hba => absurd (hab.trans hba) (lt_irrefl a))
    hsorted h ?_
  refine (List.perm_ext_iff_of_nodup ?_ ?_).2 fun s => ?_
  · exact hsorted.imp ne_of_lt
  · exact h.imp ne_of_lt
  · rw [mem_insertTexts, or_iff_left List.not_mem_nil]

/-- Options under which an amalgamation can be read again: no text breaks a line, and the master
include is missing or an include that it covers itself. -/
structure AmalgamOptions.IsRereadable (options : AmalgamOptions) : Prop where
  title : IsUnbroken options.title.toList
  guard : IsUnbroken options.guard.toList
  namespaceName : IsUnbroken options.namespaceName.toList
  masterInclude : options.masterInclude = "" ∨
    Part.IsIncludeName options.masterInclude ∧
      startsWith options.masterStart.toList options.masterInclude.toList = true

namespace Collection

variable {options : AmalgamOptions} {parts ordered : List Part}

/-! ## System includes -/

/-- The system includes that are taken from parts. -/
def ownNames (parts : List Part) : List String :=
  insertTexts ((parts.filter (!·.conditional)).flatMap Part.includes) []

/-- The master include, if there is one. -/
def masterNames (options : AmalgamOptions) : List String :=
  if options.masterInclude = "" then [] else [options.masterInclude]

theorem includesOf_eq (options : AmalgamOptions) (parts : List Part) :
    includesOf options parts = ownNames parts ++ masterNames options := rfl

/-- The includes that parts bring along are those that a part may take in. -/
theorem isOwnInclude_of_mem_ownNames (h : ∀ part ∈ parts, ∃ lines,
      (Part.read options part.name lines).outcome = .ok part) :
    ∀ name ∈ ownNames parts, Part.IsOwnInclude options name := by
  intro name hname
  rw [ownNames, mem_insertTexts, or_iff_left List.not_mem_nil] at hname
  obtain ⟨part, hpart, hname⟩ := List.mem_flatMap.1 hname
  obtain ⟨lines, hlines⟩ := h part (List.mem_filter.1 hpart).1
  exact Part.isOwnInclude_of_read hlines name hname

/-- Taking the master headers out leaves the includes of the parts. -/
theorem filter_ownNames (h : ∀ name ∈ ownNames parts, Part.IsOwnInclude options name)
    (hoptions : options.IsRereadable) :
    (ownNames parts ++ masterNames options).filter
      (fun name => !startsWith options.masterStart.toList name.toList) = ownNames parts := by
  have hown : (ownNames parts).filter
      (fun name => !startsWith options.masterStart.toList name.toList) = ownNames parts :=
    List.filter_eq_self.2 fun name hname => by rw [(h name hname).2]; rfl
  have hmaster : (masterNames options).filter
      (fun name => !startsWith options.masterStart.toList name.toList) = [] := by
    unfold masterNames
    split
    · rfl
    · rename_i hgiven
      have hcovered := (hoptions.masterInclude.resolve_left hgiven).2
      exact List.filter_eq_nil_iff.2
        (List.forall_mem_singleton.2 (by rw [hcovered]; exact Bool.false_ne_true))
  rw [List.filter_append, hown, hmaster, List.append_nil]

/-- All includes of a printed header have names that can be read. -/
theorem isIncludeName_of_mem (h : ∀ name ∈ ownNames parts, Part.IsOwnInclude options name)
    (hoptions : options.IsRereadable) :
    ∀ name ∈ ownNames parts ++ masterNames options, Part.IsIncludeName name := by
  intro name hname
  rcases List.mem_append.1 hname with hname | hname
  · exact (h name hname).1
  · unfold masterNames at hname
    split at hname
    · cases hname
    · rename_i hgiven
      rw [List.mem_singleton.1 hname]
      exact (hoptions.masterInclude.resolve_left hgiven).1

/-! ## The lines of an amalgamation -/

/-- The lines of an amalgamation of unconditional parts, given those of its blocks. -/
def plainLines (options : AmalgamOptions) (includes : List String) (blocks : List Line) :
    List Line :=
  ["// ".toList ++ options.title.toList, "#ifndef ".toList ++ options.guard.toList,
      "#define ".toList ++ options.guard.toList, []] ++
    Header.block (includes.map systemInclude) ++
    (namespaceOpen options.namespaceName :: ([] :: blocks ++
      namespaceClose options.namespaceName :: [[], "#endif // ".toList ++ options.guard.toList]))

/-- The block of includes consists of lines without a line end. -/
theorem unbroken_block {includes : List String}
    (h : ∀ name ∈ includes, Part.IsIncludeName name) :
    ∀ line ∈ Header.block (includes.map systemInclude), IsUnbroken line := by
  intro line hline
  unfold Header.block at hline
  split at hline
  · cases hline
  · rcases List.mem_append.1 hline with hline | hline
    · obtain ⟨name, hname, rfl⟩ := List.mem_map.1 hline
      exact Part.isUnbroken_systemInclude (h name hname)
    · rw [List.mem_singleton.1 hline]
      exact List.forall_mem_nil _

theorem unbroken_namespaceOpen (hoptions : options.IsRereadable) :
    IsUnbroken (namespaceOpen options.namespaceName) :=
  (IsUnbroken.append (by decide) hoptions.namespaceName).append (by decide)

theorem unbroken_namespaceClose (hoptions : options.IsRereadable) :
    IsUnbroken (namespaceClose options.namespaceName) :=
  IsUnbroken.append (by decide) hoptions.namespaceName

/-- The lines of a printed header have no line end in them when its blocks have none. -/
theorem unbroken_plainLines (hoptions : options.IsRereadable) {includes : List String}
    (hincludes : ∀ name ∈ includes, Part.IsIncludeName name) {blocks : List Line}
    (hblocks : ∀ line ∈ blocks, IsUnbroken line) :
    ∀ line ∈ plainLines options includes blocks, IsUnbroken line := by
  have hnil : IsUnbroken [] := List.forall_mem_nil _
  have hguard : ∀ front : List Char, IsUnbroken front →
      IsUnbroken (front ++ options.guard.toList) := fun _ hfront => hfront.append hoptions.guard
  unfold plainLines
  simp only [List.forall_mem_append, List.forall_mem_cons]
  exact ⟨⟨⟨IsUnbroken.append (by decide) hoptions.title, hguard _ (by decide),
    hguard _ (by decide), hnil, List.forall_mem_nil _⟩, unbroken_block hincludes⟩,
    unbroken_namespaceOpen hoptions, ⟨hnil, hblocks⟩, unbroken_namespaceClose hoptions, hnil,
    hguard _ (by decide), List.forall_mem_nil _⟩

/-- The pieces of an amalgamation of unconditional parts, cut into lines. -/
theorem flatMap_pieces_eq (hoptions : options.IsRereadable) {includes : List String}
    (hincludes : ∀ name ∈ includes, Part.IsIncludeName name)
    (hplain : ∀ part ∈ parts, part.conditional = false) :
    (pieces options includes parts).flatMap (Text.pieces '\n') =
      plainLines options includes ((Part.plainBlocks parts).flatMap (Text.pieces '\n')) := by
  have hline : ∀ line : Line, IsUnbroken line → Text.pieces '\n' line = [line] :=
    fun line hline => pieces_of_not_mem hline.newline_not_mem
  have hblock : (Header.block (includes.map systemInclude)).flatMap (Text.pieces '\n') =
      Header.block (includes.map systemInclude) :=
    flatMap_pieces fun line hline => (unbroken_block hincludes line hline).newline_not_mem
  have hguard : ∀ front : List Char, IsUnbroken front →
      Text.pieces '\n' (front ++ options.guard.toList) = [front ++ options.guard.toList] :=
    fun front hfront => hline _ (hfront.append hoptions.guard)
  have htitle : Text.pieces '\n' ("// ".toList ++ options.title.toList) =
      ["// ".toList ++ options.title.toList] :=
    hline _ (IsUnbroken.append (by decide) hoptions.title)
  rw [pieces, Part.conditionalBlocks_eq_nil hplain]
  simp only [List.flatMap_append, List.flatMap_cons, List.flatMap_nil, hblock, htitle, pieces_nil,
    hguard "#ifndef ".toList (by decide), hguard "#define ".toList (by decide),
    hguard "#endif // ".toList (by decide), hline _ (unbroken_namespaceOpen hoptions),
    hline _ (unbroken_namespaceClose hoptions), plainLines, List.append_assoc, List.cons_append,
    List.nil_append]

/-! ## Reading an amalgamation -/

/-- Behind the guard of a printed header stand its includes, its namespace and its last line. -/
theorem afterGuard_plainLines (options : AmalgamOptions) (includes : List String)
    (blocks : List Line) :
    Part.afterGuard (plainLines options includes blocks) =
      [] :: (Header.block (includes.map systemInclude) ++
        namespaceOpen options.namespaceName :: ([] :: blocks ++
          namespaceClose options.namespaceName ::
            [[], "#endif // ".toList ++ options.guard.toList])) := by
  have htitle : startsWith "#ifndef".toList ("// ".toList ++ options.title.toList) = false := rfl
  have hifndef : startsWith "#ifndef".toList ("#ifndef ".toList ++ options.guard.toList) = true :=
    rfl
  have hdefine : startsWith "#define".toList ("#define ".toList ++ options.guard.toList) = true :=
    rfl
  simp only [plainLines, List.cons_append, List.nil_append, Part.afterGuard, htitle, hifndef,
    hdefine, Bool.false_and, Bool.and_self, if_true, Bool.false_eq_true, if_false]

/-- The part that an amalgamation is read as. -/
def againPart (name : String) (own : List String) (blocks : List Line) : Part where
  name := name
  includes := own
  content := some ([] :: blocks)

/-- A printed header without conditional blocks is read as one part, with the includes of the parts
and with the lines between the namespace marks. -/
theorem read_plainLines (hoptions : options.IsRereadable)
    (hown : ∀ name ∈ ownNames parts, Part.IsOwnInclude options name) {blocks : List Line}
    (hblocks : ∀ line ∈ blocks,
      startsWith (namespaceClose options.namespaceName) line = false) (name : String) :
    Part.read options name
        (plainLines options (ownNames parts ++ masterNames options) blocks) =
      ⟨[], .ok (againPart name (ownNames parts) blocks)⟩ := by
  have hcontent : ∀ line ∈ [] :: blocks,
      startsWith (namespaceClose options.namespaceName) line = false :=
    List.forall_mem_cons.2 ⟨rfl, hblocks⟩
  have hread : Part.readIncludes options { name }
      (Part.afterGuard (plainLines options (ownNames parts ++ masterNames options) blocks)) =
      .ok (againPart name (ownNames parts) blocks) := by
    rw [afterGuard_plainLines, Part.readIncludes_empty,
      Part.readIncludes_block _ (Part.readIncludes_system (isIncludeName_of_mem hown hoptions)),
      filter_ownNames hown hoptions, Part.readIncludes_namespace hcontent]
    rfl
  rw [Part.read, hread]
  rfl

/-- A root that needs no other header is collected alone. -/
theorem collect_alone {resolve : Resolver} {root : String} {lines : List Line} {part : Part}
    (hroot : resolve root = .ok lines) (hread : Part.read options root lines = ⟨[], .ok part⟩)
    (hdeps : part.deps = []) (fuel : Nat) :
    (collect resolve options (fuel + 1) root).outcome =
      .ok ⟨includesOf options [part], [part]⟩ := by
  have hlater : ∀ n seen, collectFrom resolve options n seen [] = ⟨[], .ok []⟩ := by
    intro n seen
    cases n with
    | zero => rfl
    | succ n => rfl
  have hfirst : (collectFrom resolve options (fuel + 1) [] [root]).outcome = .ok [part] := by
    rw [collectFrom]
    have hdrop : [root].dropWhile (fun name => ([] : List String).contains name) = [root] := rfl
    rw [hdrop]
    simp only [hroot, hread, hdeps, hlater, Logged.write, Logged.ofExcept, Except.mapError,
      Logged.ok_bind, Logged.pure_def, List.append_nil]
  rw [collect]
  generalize collectFrom resolve options (fuel + 1) [] [root] = run at hfirst
  obtain ⟨log, outcome⟩ := run
  cases hfirst
  rfl

/-! ## Printing again -/

/-- The blocks of unconditional parts. -/
def blocksOf (parts : List Part) : List (List Char) := parts.filterMap Part.block?

/-- The parts have content that is read again. -/
def AllRereadable (options : AmalgamOptions) (parts : List Part) : Prop :=
  ∀ part ∈ parts, ∀ content, part.content? = some content → Part.IsRereadable options content

/-- Each block is that of a content that can be read again. -/
theorem exists_content_of_mem_blocksOf (hplain : ∀ part ∈ parts, part.conditional = false)
    (hcontent : AllRereadable options parts) {text : List Char} (h : text ∈ blocksOf parts) :
    ∃ content, Part.IsRereadable options content ∧ text = Part.block content := by
  obtain ⟨part, hpart, hblock⟩ := List.mem_filterMap.1 h
  rw [Part.block?_of_plain (hplain part hpart)] at hblock
  obtain ⟨content, hsome, rfl⟩ := Option.map_eq_some_iff.1 hblock
  exact ⟨content, hcontent part hpart content hsome, rfl⟩

/-- The lines of the blocks are read again. -/
theorem lines_plainBlocks (hplain : ∀ part ∈ parts, part.conditional = false)
    (hcontent : AllRereadable options parts) :
    ∀ line ∈ (Part.plainBlocks parts).flatMap (Text.pieces '\n'), IsUnbroken line ∧
      startsWith (namespaceClose options.namespaceName) line = false := by
  intro line hline
  rw [Part.plainBlocks_eq hplain, List.flatMap_assoc] at hline
  obtain ⟨text, htext, hline⟩ := List.mem_flatMap.1 hline
  obtain ⟨content, hrereadable, rfl⟩ := exists_content_of_mem_blocksOf hplain hcontent htext
  rw [List.flatMap_cons, List.flatMap_singleton, pieces_nil] at hline
  rcases List.mem_append.1 hline with hline | hline
  · exact hrereadable.block_lines line hline
  · rw [List.mem_singleton.1 hline]
    exact ⟨List.forall_mem_nil _, rfl⟩

/-- All blocks together are the block of the part that the amalgamation is read as. -/
theorem plainBlocks_againPart (hplain : ∀ part ∈ parts, part.conditional = false)
    (hcontent : AllRereadable options parts) (hne : blocksOf parts ≠ []) (name : String)
    (own : List String) :
    Part.plainBlocks
        [againPart name own ((Part.plainBlocks parts).flatMap (Text.pieces '\n'))] =
      [joinLines ((blocksOf parts).intersperse []), []] := by
  have hvisible : ∀ text ∈ blocksOf parts, text ≠ [] ∧ trim text = text := by
    intro text htext
    obtain ⟨content, hrereadable, rfl⟩ := exists_content_of_mem_blocksOf hplain hcontent htext
    exact hrereadable.block_visible
  rw [Part.plainBlocks_eq hplain]
  change [Part.block _, []] = _
  rw [Part.block, ← blocksOf, trim_blocks hne hvisible]

/-- The pieces of unconditional parts stand between others that do not depend on the parts. -/
theorem exists_pieces_eq (options : AmalgamOptions) (includes : List String) :
    ∃ front back, ∀ parts : List Part, (∀ part ∈ parts, part.conditional = false) →
      pieces options includes parts = front ++ Part.plainBlocks parts ++ back := by
  refine ⟨["// ".toList ++ options.title.toList, "#ifndef ".toList ++ options.guard.toList,
      "#define ".toList ++ options.guard.toList, []] ++
      Header.block (includes.map systemInclude) ++ [namespaceOpen options.namespaceName, []],
    [namespaceClose options.namespaceName, []] ++ ["#endif // ".toList ++ options.guard.toList],
    fun parts hplain => ?_⟩
  rw [pieces, Part.conditionalBlocks_eq_nil hplain, List.append_nil, List.append_assoc]

/-- The part that the amalgamation is read as is printed like the parts. -/
theorem joinLines_pieces_againPart (includes : List String)
    (hplain : ∀ part ∈ parts, part.conditional = false)
    (hcontent : AllRereadable options parts) (hne : blocksOf parts ≠ []) (name : String)
    (own : List String) :
    joinLines (pieces options includes
        [againPart name own ((Part.plainBlocks parts).flatMap (Text.pieces '\n'))]) =
      joinLines (pieces options includes parts) := by
  have hagain : ∀ part ∈
      [againPart name own ((Part.plainBlocks parts).flatMap (Text.pieces '\n'))],
      part.conditional = false := List.forall_mem_singleton.2 rfl
  have hinner : (blocksOf parts).intersperse [] ≠ [] := by
    obtain ⟨text, later, hcons⟩ := List.exists_cons_of_ne_nil hne
    obtain ⟨rest, hrest⟩ := exists_intersperse_cons text later
    rw [hcons, hrest]
    exact List.cons_ne_nil _ _
  obtain ⟨front, back, hpieces⟩ := exists_pieces_eq options includes
  have hjoin := joinLines_append_joinLines front hinner ([] :: back)
  rw [hpieces _ hagain, hpieces _ hplain, plainBlocks_againPart hplain hcontent hne,
    Part.plainBlocks_eq hplain, ← blocksOf, flatMap_pair hne]
  simpa only [List.append_assoc, List.cons_append, List.nil_append] using hjoin

/-- **Amalgamating an amalgamation.**  Let an amalgamation be collected from unconditional headers,
some of which have content, all of it visible, on unbroken lines and without a line that begins
like the end of the namespace; and let no option break a line and the master include cover itself.
Then its text, when a root resolves to the lines of it, is collected and printed as the same text
again. -/
theorem print_again {resolve resolve' : Resolver} {fuel fuel' : Nat} {root root' : String}
    {c : Collection} {text : List Char} (hoptions : options.IsRereadable)
    (hcollect : (collect resolve options fuel root).outcome = .ok c)
    (hplain : ∀ part ∈ c.parts, part.conditional = false)
    (hsome : ∃ part ∈ c.parts, part.content?.isSome = true)
    (hcontent : AllRereadable options c.parts) (hprint : print options c = .ok text)
    (hroot : resolve' root' = .ok (lines text)) :
    ∃ c', (collect resolve' options (fuel' + 1) root').outcome = .ok c' ∧
      print options c' = .ok text := by
  obtain ⟨hincludes, hnodup, hread⟩ := collect_read hcollect
  -- the text is that of the ordered parts, which are those of the collection
  obtain ⟨ordered, horder, htext⟩ : ∃ ordered, Part.order c.parts = .ok ordered ∧
      joinLines (pieces options c.includes ordered) ++ ['\n'] = text := by
    rw [print] at hprint
    cases horder : Part.order c.parts with
    | error e =>
      rw [horder] at hprint
      cases hprint
    | ok ordered =>
      rw [horder] at hprint
      exact ⟨ordered, rfl, Except.ok.inj hprint⟩
  have hperm := Part.order_perm hnodup horder
  have hplain' : ∀ part ∈ ordered, part.conditional = false :=
    fun part hpart => hplain part (hperm.mem_iff.1 hpart)
  have hcontent' : AllRereadable options ordered :=
    fun part hpart => hcontent part (hperm.mem_iff.1 hpart)
  have hne : blocksOf ordered ≠ [] := by
    obtain ⟨part, hpart, hpartsome⟩ := hsome
    obtain ⟨content, hpartcontent⟩ := Option.isSome_iff_exists.1 hpartsome
    have hblock : Part.block content ∈ blocksOf ordered := by
      refine List.mem_filterMap.2 ⟨part, hperm.mem_iff.2 hpart, ?_⟩
      rw [Part.block?_of_plain (hplain part hpart), hpartcontent, Option.map_some]
    exact List.ne_nil_of_mem hblock
  -- its lines are those of a header with the same system includes
  have hown := isOwnInclude_of_mem_ownNames fun part hpart =>
    (hread part hpart).imp fun _ h => h.2
  have hnames := isIncludeName_of_mem hown hoptions
  rw [hincludes, includesOf_eq] at htext
  have hlines : lines text = plainLines options (ownNames c.parts ++ masterNames options)
      ((Part.plainBlocks ordered).flatMap (Text.pieces '\n')) := by
    rw [← htext, ← joinLines_flatMap_pieces, flatMap_pieces_eq hoptions hnames hplain']
    refine lines_joinLines (List.cons_ne_nil _ _) (unbroken_plainLines hoptions hnames ?_)
    exact fun line hline => (lines_plainBlocks hplain' hcontent' line hline).1
  have hagain := read_plainLines hoptions hown
    (fun line hline => (lines_plainBlocks hplain' hcontent' line hline).2) root'
  rw [hlines] at hroot
  refine ⟨_, collect_alone hroot hagain rfl fuel', ?_⟩
  have hsame : includesOf options [againPart root' (ownNames c.parts)
      ((Part.plainBlocks ordered).flatMap (Text.pieces '\n'))] =
      ownNames c.parts ++ masterNames options := by
    have hsorted : (ownNames c.parts).Pairwise (· < ·) := pairwise_insertTexts List.Pairwise.nil
    conv_rhs => rw [← insertTexts_of_pairwise hsorted]
    rw [includesOf_eq]
    exact congrArg (fun names => insertTexts names [] ++ masterNames options)
      (List.append_nil (ownNames c.parts))
  rw [print, Part.order_singleton rfl]
  refine congrArg Except.ok ?_
  rw [hsame, ← htext, joinLines_pieces_againPart _ hplain' hcontent' hne]

/-- A header and one that it includes. -/
def pairHeaders : Keyed (List Line) := [
  ("root.hpp", ["#ifndef ROOT_H_", "#define ROOT_H_", "#include \"wide.hpp\"",
    "namespace SDL \x7b", "Wide width();", "\x7d // namespace SDL", "#endif"].map String.toList),
  ("wide.hpp", ["#ifndef WIDE_H_", "#define WIDE_H_", "#include <memory>", "#include <SDL3/SDL.h>",
    "namespace SDL \x7b", "", "  using Wide = long;", "", "\x7d // namespace SDL",
    "#endif"].map String.toList)]

/-- What is collected from the two headers. -/
def pairCollection : Collection where
  includes := ["memory", "SDL3/SDL.h"]
  parts := [
    { name := "root.hpp", deps := ["wide.hpp"], content := some ["Wide width();".toList] },
    { name := "wide.hpp", includes := ["memory"],
      content := some ["".toList, "  using Wide = long;".toList, "".toList] }]

theorem collect_pairHeaders :
    (collect (tableResolver pairHeaders) {} 3 "root.hpp").outcome = .ok pairCollection := rfl

/-- What is collected from the two headers can be read again. -/
theorem allRereadable_pairCollection : AllRereadable {} pairCollection.parts := by
  refine List.forall_mem_cons.2 ⟨?_, List.forall_mem_singleton.2 ?_⟩
  · rintro _ ⟨⟩
    exact ⟨⟨"Wide width();".toList, by decide, 'W', by decide, by decide⟩, by decide, by decide⟩
  · rintro _ ⟨⟩
    exact ⟨⟨"  using Wide = long;".toList, by decide, 'u', by decide, by decide⟩, by decide,
      by decide⟩

/-- The amalgamation of the two headers, read as a header of its own. -/
theorem print_again_pair :
    AmalgamOptions.IsRereadable {} ∧
      (collect (tableResolver pairHeaders) {} 3 "root.hpp").outcome = .ok pairCollection ∧
      (∀ part ∈ pairCollection.parts, part.conditional = false) ∧
      (∃ part ∈ pairCollection.parts, part.content?.isSome = true) ∧
      AllRereadable {} pairCollection.parts ∧
      ∃ text, print {} pairCollection = .ok text ∧
        ∃ c', (collect (fun _ => .ok (lines text)) {} 1 "all.hpp").outcome = .ok c' ∧
          print {} c' = .ok text := by
  have hoptions : AmalgamOptions.IsRereadable {} :=
    ⟨by decide, by decide, by decide, Or.inr ⟨by decide, by decide⟩⟩
  have hplain : ∀ part ∈ pairCollection.parts, part.conditional = false := by decide
  have hsome : ∃ part ∈ pairCollection.parts, part.content?.isSome = true :=
    ⟨_, List.mem_cons_self, rfl⟩
  have horder : Part.order pairCollection.parts = .ok pairCollection.parts.reverse := by
    decide +kernel
  have hprint : print {} pairCollection =
      .ok (joinLines (pieces {} pairCollection.includes pairCollection.parts.reverse) ++
        ['\n']) := by
    rw [print, horder]
    rfl
  exact ⟨hoptions, collect_pairHeaders, hplain, hsome, allRereadable_pairCollection, _, hprint,
    print_again hoptions collect_pairHeaders hplain hsome allRereadable_pairCollection hprint rfl⟩

end Collection

end HeaderApi
