import HeaderApi.Proofs.LookAhead
import HeaderApi.Proofs.MemberHeads
import HeaderApi.Proofs.MemberLines

/-!
# Comments between parameters

The reader of a parameter list counts parentheses and quotes, those in comments too.  A comment
that closes what it opens may be put in between the parameters of a function: the tokens of a
stream stay the same, with their names, types and lines, and only the text of the parameters
changes.  The line with which the function begins is read by more than the parameter list, so there
the comment may have no parentheses, quotes, braces and brackets at all.
-/

namespace HeaderApi

open Text Source

/-! ## Trimmed lines with a comment -/

namespace Text

variable {a b text : Line}

/-- White space stands at the end of the first text or at the beginning of the second. -/
def MeetAtBlank (a b : Line) : Prop :=
  (∀ c ∈ a.getLast?, isBlank c = true) ∨ ∀ c ∈ b.head?, isBlank c = true

instance : Decidable (MeetAtBlank a b) :=
  decidable_of_iff ((a.getLast?.all isBlank || b.head?.all isBlank) = true) <| by
    rw [MeetAtBlank, Bool.or_eq_true]
    cases a.getLast? <;> cases b.head? <;> simp

/-- A comment ends with a visible character. -/
theorem trimEnd_block (text : Line) : trimEnd (Comment.block text) = Comment.block text := by
  have hlast : Comment.block text = "/*".toList ++ (text ++ ['*']) ++ ['/'] := by
    simp [Comment.block]
  rw [hlast, trimEnd_concat (by decide)]

theorem trimStart_block (text tail : Line) :
    trimStart (Comment.block text ++ tail) = Comment.block text ++ tail :=
  trimStart_cons (by decide) _

theorem trimEnd_ne_nil (h : allBlank b = false) : trimEnd b ≠ [] := by
  intro hnil
  rw [allBlank, List.all_eq_true.2 (allBlank_of_trimEnd_eq_nil hnil)] at h
  cases h

theorem trimEnd_block_ne_nil (text : Line) : trimEnd (Comment.block text) ≠ [] := by
  rw [trimEnd_block]
  exact List.cons_ne_nil _ _

/-- A comment behind visible text keeps what the line has in front of it and behind it, apart from
the blanks that it keeps from the end of the line. -/
theorem exists_trim_insert (ha : trim a ≠ []) (text b : Line) :
    ∃ lead gap back, allBlank lead = true ∧ allBlank gap = true ∧
      trim (a ++ b) = trim a ++ lead ++ back ∧
      trim (a ++ (Comment.block text ++ b)) =
        trim a ++ lead ++ (gap ++ (Comment.block text ++ back)) ∧
      (MeetAtBlank a b → MeetAtBlank (trim a ++ lead) back) := by
  obtain ⟨tail, htail, hblank⟩ := dropEndWhile_append isBlank (trimStart a)
  have hstart : trimStart a = trim a ++ tail := htail
  have hne : trimStart a ≠ [] := by
    rw [hstart]
    exact List.append_ne_nil_of_left_ne_nil ha tail
  have htrim (rest : Line) : trim (a ++ rest) = trimEnd (trimStart a ++ rest) := by
    rw [trim, trimStart_append_of_ne_nil hne]
  cases hb : allBlank b with
  | true =>
    -- nothing visible follows, and the blanks at the end of the line go with the trimming
    have hbBlank : ∀ c ∈ b, isBlank c = true := List.all_eq_true.1 hb
    refine ⟨[], tail, [], rfl, List.all_eq_true.2 hblank, ?_, ?_, fun _ => .inr (by simp)⟩
    · rw [trim_append_of_blank hbBlank]
      simp
    · rw [htrim, ← List.append_assoc, trimEnd_append_of_blank hbBlank,
        trimEnd_append_of_ne_nil (trimEnd_block_ne_nil text), trimEnd_block, hstart]
      simp
  | false =>
    -- the line ends in the same way, and the blanks in front of the comment stay
    have hback : trimEnd b ≠ [] := trimEnd_ne_nil hb
    have hback' : trimEnd (Comment.block text ++ b) ≠ [] := by
      rw [trimEnd_append_of_ne_nil hback]
      exact List.append_ne_nil_of_right_ne_nil _ hback
    refine ⟨tail, [], trimEnd b, List.all_eq_true.2 hblank, rfl, ?_, ?_, fun hmeet => ?_⟩
    · rw [htrim, trimEnd_append_of_ne_nil hback, hstart]
    · rw [htrim, trimEnd_append_of_ne_nil hback', trimEnd_append_of_ne_nil hback, hstart]
      rfl
    · refine hmeet.imp (fun hlast c hc => hlast c ?_) fun hhead c hc => hhead c ?_
      · obtain ⟨front, hfront⟩ : trimStart a <:+ a := List.dropWhile_suffix isBlank
        rw [← hstart] at hc
        rw [← hfront, List.getLast?_append_of_ne_nil _ hne]
        exact hc
      · obtain ⟨rest, hrest⟩ := prefix_of_trimEnd b
        rw [← hrest, List.head?_append_of_ne_nil _ hback]
        exact hc

/-- A comment behind blanks stands in front of the line. -/
theorem exists_trim_insert_of_blank (ha : allBlank a = true) (text b : Line) :
    ∃ gap, allBlank gap = true ∧ trim (a ++ b) = trim b ∧
      trim (a ++ (Comment.block text ++ b)) = Comment.block text ++ (gap ++ trim b) := by
  have hblank : ∀ c ∈ a, isBlank c = true := List.all_eq_true.1 ha
  have hfront : trim (a ++ b) = trim b := by rw [trim, trimStart_append_of_blank hblank, trim]
  have hcomment : trim (a ++ (Comment.block text ++ b)) = trimEnd (Comment.block text ++ b) := by
    rw [trim, trimStart_append_of_blank hblank, trimStart_block]
  cases hb : allBlank b with
  | true =>
    have hbBlank : ∀ c ∈ b, isBlank c = true := List.all_eq_true.1 hb
    have hnil : trim ([] ++ b) = trim [] := trim_append_of_blank hbBlank
    rw [List.nil_append, trim_nil] at hnil
    refine ⟨[], rfl, hfront, ?_⟩
    rw [hcomment, trimEnd_append_of_blank hbBlank, trimEnd_block, hnil]
    simp
  | false =>
    have hback : trimEnd b ≠ [] := trimEnd_ne_nil hb
    have hsplit : b.takeWhile isBlank ++ trimStart b = b := List.takeWhile_append_dropWhile
    have hvisible : trimEnd (trimStart b) ≠ [] := by
      refine trimEnd_ne_nil ?_
      rw [← hsplit, allBlank, List.all_append, List.all_takeWhile, Bool.true_and] at hb
      exact hb
    have hgap : trimEnd b = b.takeWhile isBlank ++ trim b := by
      conv_lhs => rw [← hsplit, trimEnd_append_of_ne_nil hvisible]
      rfl
    refine ⟨b.takeWhile isBlank, List.all_takeWhile, hfront, ?_⟩
    rw [hcomment, trimEnd_append_of_ne_nil hback, hgap]

/-- A comment in a line, at any place. -/
theorem exists_trim_insert_balanced (htext : IsBalanced text) (a b : Line) :
    ∃ lead put back, allBlank lead = true ∧ IsBalanced put ∧
      trim (a ++ b) = trim a ++ lead ++ back ∧
      trim (a ++ (Comment.block text ++ b)) = trim a ++ lead ++ (put ++ back) := by
  have hblock : IsBalanced (Comment.block text) := Comment.isBalanced_block htext
  by_cases ha : trim a = []
  · have hblank : allBlank a = true := by
      refine eq_true_of_ne_false fun hvisible => ?_
      obtain ⟨c, hc, hcBlank⟩ := List.all_eq_false.1 hvisible
      exact trim_ne_nil hc (by simpa using hcBlank) ha
    obtain ⟨gap, hgap, hline, hline'⟩ := exists_trim_insert_of_blank hblank text b
    refine ⟨[], Comment.block text ++ gap, trim b, rfl,
      hblock.append (isInert_of_blank hgap).isBalanced, ?_, ?_⟩
    · rw [hline, ha]
      rfl
    · rw [hline', ha]
      simp
  · obtain ⟨lead, gap, back, hlead, hgap, hline, hline', -⟩ := exists_trim_insert ha text b
    refine ⟨lead, gap ++ Comment.block text, back, hlead,
      (isInert_of_blank hgap).isBalanced.append hblock, hline, ?_⟩
    rw [hline']
    simp

end Text

/-! ## Heads with a comment behind the parenthesis -/

namespace Member

variable {a b text front opened parameters : Line} {depth : Int} {head : Head}

/-- A text behind a blank continues no word. -/
theorem continues_of_meetAtBlank (h : MeetAtBlank a b) : Continues false a b := by
  intro hword c hc
  rcases h with hlast | hhead
  · rcases List.eq_nil_or_concat a with rfl | ⟨front, d, rfl⟩
    · cases hword
    · have hd : isBlank d = true := hlast d (by simp)
      rw [List.concat_eq_append, endsInWord_append (List.cons_ne_nil d []) false false] at hword
      rw [show endsInWord false [d] = isWord d from rfl, (isWord_of_isBlank hd).1] at hword
      cases hword
  · exact isWord_of_isBlank (hhead c hc)

/-- An open list does not begin with the parenthesis that closes it. -/
theorem startsWith_of_isOpen (h : IsOpen 1 opened depth) (hne : opened ≠ []) (rest : Line) :
    startsWith [')'] (opened ++ rest) = false := by
  obtain ⟨c, opened, rfl⟩ := List.exists_cons_of_ne_nil hne
  have hc : ')' ≠ c := by
    rintro rfl
    cases h.missing
  rw [List.cons_append, startsWith, after?, if_neg hc]
  rfl

/-- What stands in a line without attributes, when a comment is put in behind the parenthesis that
opens the parameters. -/
theorem dropAttributes_insert (htext : IsInert text) (hmeet : MeetAtBlank a b)
    (hopened : dropAttributes (trim a) = front ++ '(' :: opened) :
    dropAttributes (trim (a ++ (Comment.block text ++ b))) = dropAttributes (trim (a ++ b)) ∨
    ∃ lead put back, allBlank lead = true ∧ put ≠ [] ∧ IsInert put ∧
      dropAttributes (trim (a ++ b)) = front ++ '(' :: (opened ++ lead ++ back) ∧
      dropAttributes (trim (a ++ (Comment.block text ++ b))) =
        front ++ '(' :: (opened ++ lead ++ (put ++ back)) := by
  have hvisible : trimStart (dropAttributesFrom 0 false (trim a)) ≠ [] := by
    rw [show trimStart _ = _ from hopened]
    exact List.append_ne_nil_of_right_ne_nil front (List.cons_ne_nil _ _)
  have ha : trim a ≠ [] := by
    intro hnil
    rw [hnil] at hvisible
    exact hvisible rfl
  obtain ⟨lead, gap, back, hlead, hgap, hline, hline', hblank⟩ := exists_trim_insert ha text b
  obtain ⟨lead', hlead', hfront⟩ := exists_dropAttributesFrom_append_blank hlead false (trim a)
  have hcontinues : Continues false (trim a ++ lead) back := continues_of_meetAtBlank (hblank hmeet)
  have hrest (rest : Line) :
      trimStart (dropAttributesFrom 0 false (trim a ++ lead) ++ rest) =
        front ++ '(' :: (opened ++ lead' ++ rest) := by
    rw [hfront, List.append_assoc, trimStart_append_of_ne_nil hvisible,
      show trimStart _ = _ from hopened]
    simp
  rw [dropAttributes, dropAttributes, hline, hline']
  rcases dropAttributesFrom_block (b := back) hgap htext hcontinues with
    hsame | ⟨put, back', hput, hinert, hdrop, hdrop'⟩
  · exact .inl (congrArg trimStart hsame)
  · refine .inr ⟨lead', put, back', hlead', hput, hinert, ?_, ?_⟩
    · rw [hdrop, hrest]
    · rw [hdrop', hrest]

/-- A line has the head of a function and the beginning of its parameters. -/
structure BeginsFunction (line : Line) (head : Head) (parameters : Line) : Prop where
  head_eq : head? (dropAttributes line) = some head
  rest_eq : trimStart head.rest = '(' :: parameters

/-- The head of a function stays the same, and the text of the parameters changes where the list
is open, if it does. -/
theorem BeginsFunction.insert (h : BeginsFunction (trim (a ++ b)) head parameters)
    (htext : IsInert text) (hmeet : MeetAtBlank a b)
    (hline : dropAttributes (trim (a ++ b)) = front ++ '(' :: parameters)
    (hopened : dropAttributes (trim a) = front ++ '(' :: opened)
    (hopen : IsOpen 1 opened depth) :
    ∃ rest opened' depth' put back, IsOpen 1 opened' depth' ∧ IsInert put ∧
      parameters = opened' ++ back ∧
      BeginsFunction (trim (a ++ (Comment.block text ++ b))) { head with rest }
        (opened' ++ (put ++ back)) := by
  rcases dropAttributes_insert htext hmeet hopened with
    hsame | ⟨lead, put, back, hlead, hput, hinert, hdrop, hdrop'⟩
  · refine ⟨head.rest, [], 1, [], parameters, IsInert.isOpen (by decide) 1, by decide, rfl, ?_,
      h.rest_eq⟩
    rw [hsame, h.head_eq]
  · obtain rfl : parameters = opened ++ lead ++ back := by
      have hbehind := List.append_cancel_left (hline.symm.trans hdrop)
      exact (List.cons.inj hbehind).2
    have hopen' : IsOpen 1 (opened ++ lead) depth :=
      hopen.append ((isInert_of_blank hlead).isOpen depth)
    -- the list is still open in front of the comment, so it does not end there
    have hstart : startsWith [')'] (opened ++ lead ++ (put ++ back)) = false := by
      rw [← List.append_assoc]
      exact startsWith_of_isOpen (hopen'.append (hinert.isOpen depth))
        (List.append_ne_nil_of_right_ne_nil _ hput) back
    have hhead := h.head_eq
    rw [hline] at hhead
    obtain ⟨rest, hhead', hrest⟩ := exists_head?_exchange hhead h.rest_eq hstart
    exact ⟨rest, _, depth, put, back, hopen', hinert, rfl, hdrop' ▸ hhead', hrest⟩

/-! ## Functions with a comment between their parameters -/

variable {line line' parameters' : Line} {rest rest' left : List Line} {function : FunctionHead}

/-- Two parameter lists that end at the same place, in front of the same lines. -/
def EndAlike (parameters parameters' : Line) (rest rest' : List Line) : Prop :=
  ∀ list left, Block.enclosed '(' ')' 1 parameters rest = some (list, left) →
    ∃ inside, Block.enclosed '(' ')' 1 parameters' rest' = some ({ list with inside }, left)

/-- Lists that end alike give functions that differ in their parameters only. -/
theorem readFunction_of_endAlike (halike : EndAlike parameters parameters' rest rest')
    (behind : List Char)
    (h : readFunction head parameters rest = .ok (.function function, left)) :
    ∃ text, readFunction { head with rest := behind } parameters' rest' =
      .ok (.function { function with parameters := text }, left) := by
  rw [readFunction] at h
  obtain ⟨⟨list, here⟩, hlist, h⟩ := exists_ok_of_bind h
  obtain ⟨left', htail, h⟩ := exists_ok_of_bind h
  obtain ⟨inside, hlist'⟩ := halike list here (Block.exists_parenthesized hlist)
  have hparenthesized : Block.parenthesized parameters' rest' =
      .ok ({ list with inside }, here) := by
    rw [Block.parenthesized, hlist']
  refine ⟨String.ofList (trim (joinLines inside)), ?_⟩
  rw [readFunction, hparenthesized]
  have hok {α β : Type} (a : α) (f : α → Except Fault β) : (Except.ok a >>= f) = f a := rfl
  rw [hok]
  dsimp only at h ⊢
  rw [htail, hok]
  cases h
  rfl

/-- A member that is read as a function begins one. -/
theorem exists_beginsFunction {bare : Bool}
    (h : Member.read line rest = .ok (.function function, bare, left)) :
    ∃ head parameters, BeginsFunction line head parameters ∧ bare = false ∧
      readFunction head parameters rest = .ok (.function function, left) := by
  cases read_cases h with
  | function hhead hparameters hread => exact ⟨_, _, ⟨hhead, hparameters⟩, rfl, hread⟩
  | var _ _ hread =>
    obtain ⟨_, hother⟩ | ⟨_, hother⟩ := readVariable_cases hread
    · cases hother
    · cases hother

/-- What begins a function with the same head, and parameters that end alike, is read alike. -/
theorem BeginsFunction.exchange {behind : List Char} (h : BeginsFunction line head parameters)
    (h' : BeginsFunction line' { head with rest := behind } parameters')
    (halike : EndAlike parameters parameters' rest rest')
    (hread : Member.read line rest = .ok (.function function, false, left)) :
    ∃ text, Member.read line' rest' =
      .ok (.function { function with parameters := text }, false, left) := by
  obtain ⟨head', parameters'', hbegins, -, hread⟩ := exists_beginsFunction hread
  obtain rfl : head = head' := Option.some.inj (h.head_eq.symm.trans hbegins.head_eq)
  obtain rfl : parameters = parameters'' := (List.cons.inj (h.rest_eq.symm.trans hbegins.rest_eq)).2
  obtain ⟨text, hread'⟩ := readFunction_of_endAlike halike behind hread
  refine ⟨text, ?_⟩
  simp only [Member.read, h'.head_eq, h'.rest_eq, hread']
  rfl

end Member

/-! ## Places in parameter lists -/

namespace Token

variable {mode : Mode} {a b text raw raw' : Line} {up down rest rest' : List Line}

/-- The place between two parts of a line, below some lines with which a function begins, lies
between its parameters and outside literals: the list is open in front of it.  On the first line of
the function the parenthesis of the list stands in the part `a`; otherwise it stands on an earlier
line. -/
inductive InParameters (up : List Line) (a b : Line) : Prop
  | first {head : Member.Head} {front opened parameters : Line} {depth : Int}
      (hup : ∀ line ∈ up, allBlank line = true)
      (hbegins : Member.BeginsFunction (trim (a ++ b)) head parameters)
      (hline : Member.dropAttributes (trim (a ++ b)) = front ++ '(' :: parameters)
      (hopened : Member.dropAttributes (trim a) = front ++ '(' :: opened)
      (hopen : IsOpen 1 opened depth)
  | later {head : Member.Head} {raw : Line} {mid : List Line} {parameters : Line}
      {depth depth' : Int} (hup : skipBlankLines up = raw :: mid)
      (hbegins : Member.BeginsFunction (trim raw) head parameters)
      (hlist : Block.openDepth? 1 (parameters :: mid.map trim) = some depth)
      (hopen : IsOpen depth (trim a) depth')

/-- Two beginnings of statements that are functions alike: where one is read, the other is, and
they differ in the text of the parameters only. -/
structure SameFunction (mode : Mode) (raw : Line) (rest : List Line) (raw' : Line)
    (rest' : List Line) : Prop where
  alike : Alike raw raw'
  indentation_eq : indentation raw' = indentation raw
  length_eq : rest'.length = rest.length
  isMember : IsMember mode (trim raw) → IsMember mode (trim raw')
  read : ∀ function left, Member.read (trim raw) rest = .ok (.function function, false, left) →
    ∃ parameters, Member.read (trim raw') rest' =
      .ok (.function { function with parameters }, false, left)

/-- Two lines with the same text up to a parenthesis are not told apart. -/
theorem alike_of_paren {p z z' : Line} (h : trim raw = p ++ '(' :: z)
    (h' : trim raw' = p ++ '(' :: z') : Alike raw raw' := by
  have hvisible {line tail : Line} (h : trim line = p ++ '(' :: tail) : allBlank line = false := by
    have hmem : '(' ∈ line :=
      (infix_trim line).subset (h ▸ List.mem_append_right p List.mem_cons_self)
    exact List.all_eq_false.2 ⟨'(', hmem, by decide⟩
  have hconst (tail : Line) : p ++ '(' :: tail ≠ "const".toList := by
    intro heq
    have hmem : '(' ∈ "const".toList := heq ▸ List.mem_append_right p List.mem_cons_self
    exact absurd hmem (by decide)
  constructor
  · exact hvisible h
  · exact hvisible h'
  · intro opening hopening
    rw [h, h', startsWith_append_cons hopening, startsWith_append_cons hopening]
  · rw [h, h', isForwardMarker_append, isForwardMarker_append]
  · rw [h, h']
    exact iff_of_false (hconst z') (hconst z)

/-- A comment without braces and brackets is put aside. -/
theorem isAside_block {gap : Line} (hgap : allBlank gap = true) (htext : IsInert text)
    (hbrace : '\x7b' ∉ text) (hbracket : ']' ∉ text) : IsAside (gap ++ Comment.block text) := by
  have hnot {c : Char} (hblank : isBlank c = false) (hmark : c ≠ '/' ∧ c ≠ '*') (hc : c ∉ text) :
      c ∉ gap ++ Comment.block text := by
    intro hmem
    have hgapMem : c ∈ gap := by simpa [Comment.block, hmark, hc] using hmem
    rw [List.all_eq_true.1 hgap c hgapMem] at hblank
    cases hblank
  exact ⟨hnot (by decide) (by decide) fun hmem => (htext _ hmem).1 rfl,
    hnot (by decide) (by decide) hbrace, hnot (by decide) (by decide) hbracket,
    gap, '*' :: (text ++ "*/".toList), rfl, hgap⟩

/-- A comment on the line of the opening parenthesis changes nothing but the parameters. -/
theorem SameFunction.first {head : Member.Head} {front opened parameters : Line} {depth : Int}
    (hignored : ∀ opening ∈ mode.ignored, '(' ∉ opening.dropLast)
    (htext : IsInert text) (hbrace : '\x7b' ∉ text) (hbracket : ']' ∉ text)
    (hmeet : MeetAtBlank a b) (hbegins : Member.BeginsFunction (trim (a ++ b)) head parameters)
    (hline : Member.dropAttributes (trim (a ++ b)) = front ++ '(' :: parameters)
    (hopened : Member.dropAttributes (trim a) = front ++ '(' :: opened)
    (hopen : IsOpen 1 opened depth) (down : List Line) :
    SameFunction mode (a ++ b) down (a ++ (Comment.block text ++ b)) down := by
  have hmem : '(' ∈ trim a := by
    have hdropped : '(' ∈ Member.dropAttributes (trim a) :=
      hopened ▸ List.mem_append_right front List.mem_cons_self
    exact Member.dropAttributesFrom_subset 0 false _
      ((List.dropWhile_suffix isBlank).subset hdropped)
  obtain ⟨p, q, ha, hp⟩ := List.eq_append_cons_of_mem hmem
  obtain ⟨lead, gap, back, hlead, hgap, htrim, htrim', -⟩ :=
    exists_trim_insert (List.ne_nil_of_mem hmem) text b
  have hraw : trim (a ++ b) = p ++ '(' :: (q ++ lead ++ back) := by
    rw [htrim, ha]
    simp
  have hraw' : trim (a ++ (Comment.block text ++ b)) =
      p ++ '(' :: (q ++ lead ++ (gap ++ Comment.block text ++ back)) := by
    rw [htrim', ha]
    simp
  -- behind the first parenthesis the comment is an aside for the tests of other statements
  have haside := isAside_block hgap htext hbrace hbracket
  refine ⟨alike_of_paren hraw hraw', ?_, rfl, fun hmember => ?_, fun function left hread => ?_⟩
  · obtain ⟨u, v, rfl⟩ := List.append_of_mem ((infix_trim a).subset hmem)
    have hblanks (tail : Line) : indentation (u ++ '(' :: v ++ tail) = indentation u := by
      rw [indentation, indentation, List.append_assoc, List.cons_append,
        takeWhile_append_stop (by decide)]
    rw [hblanks, hblanks]
  · rw [hraw] at hmember
    rw [hraw']
    exact hmember.insert haside hp hignored
  · obtain ⟨behind, opened', depth', put, back, hopen', hput, rfl, hbegins'⟩ :=
      hbegins.insert htext hmeet hline hopened hopen
    exact hbegins.exchange hbegins'
      (fun list left => Block.enclosed_insert hopen' (hput.isOpen depth')) hread

/-- A comment on a later line of the list changes nothing but the parameters. -/
theorem SameFunction.later {head : Member.Head} {mid : List Line} {parameters : Line}
    {depth depth' : Int} (htext : IsBalanced text) (hvisible : allBlank raw = false)
    (hbegins : Member.BeginsFunction (trim raw) head parameters)
    (hlist : Block.openDepth? 1 (parameters :: mid.map trim) = some depth)
    (hopen : IsOpen depth (trim a) depth') (down : List Line) :
    SameFunction mode raw (mid ++ (a ++ b) :: down) raw
      (mid ++ (a ++ (Comment.block text ++ b)) :: down) := by
  refine ⟨.refl hvisible, rfl, by simp, id, fun function left hread => ?_⟩
  obtain ⟨lead, put, back, hlead, hput, hline, hline'⟩ := exists_trim_insert_balanced htext a b
  have hpos : 1 ≤ depth' := hopen.one_le (Block.one_le_of_openDepth? hlist (Int.le_refl 1))
  have hopen' : IsOpen depth (trim a ++ lead) depth' :=
    hopen.append ((isInert_of_blank hlead).isOpen depth')
  exact hbegins.exchange hbegins (fun list left =>
    Block.enclosed_insert_below hlist hopen' (hput.isOpen hpos) hline hline') hread

/-! ## Tokens -/

variable {first : Int} {c : Cursor} {ahead : Advance} {before after : List Token} {token : Token}
  {function : FunctionHead} {fuel : Nat}

/-- The token of a function and the cursor behind it are the same for functions alike. -/
theorem SameFunction.step {lines' : List Line} (hsame : SameFunction mode raw rest raw' rest')
    (hskip : skipBlankLines c.rest = raw :: rest) (hskip' : skipBlankLines lines' = raw' :: rest')
    (hlength : lines'.length = c.rest.length) (h : Token.step mode c = .ok ahead)
    (hfunction : ahead.token.statement = .function function) :
    ∃ ahead' parameters, Token.step mode { c with rest := lines' } = .ok ahead' ∧
      ahead'.token = { ahead.token with statement := .function { function with parameters } } ∧
      ahead'.cursor = ahead.cursor := by
  rw [Token.step, hskip] at h
  dsimp only at h
  split at h
  · rename_i read hread
    cases h
    have hmember := isMember_of_function hread hfunction
    rw [readStatement_of_isMember hmember, readMember] at hread
    obtain ⟨⟨statement, bare, left⟩, hmemberRead, rfl⟩ := exists_ok_of_map hread
    obtain rfl : statement = .function function := hfunction
    obtain ⟨-, -, -, rfl, -⟩ := Member.exists_beginsFunction hmemberRead
    obtain ⟨parameters, hread'⟩ := hsame.read function left hmemberRead
    -- as many lines are left, so the cursor moves to the same line
    have hmove : ({ c with rest := lines' } : Cursor).moveTo (skipBlankLines left) =
        c.moveTo (skipBlankLines left) := by
      simp only [Cursor.moveTo, hlength]
    refine ⟨advance { c with rest := lines' } (indentation raw')
      { statement := .function { function with parameters }, scopes := c.scopes, rest := left },
      parameters, ?_, ?_, ?_⟩
    · rw [Token.step, hskip']
      dsimp only
      rw [readStatement_of_isMember (hsame.isMember hmember), readMember, hread']
      rfl
    · simp only [advance, hmove, hsame.indentation_eq]
    · simp only [advance, hmove]
  · cases h

/-- A stream that goes on behind a token takes a step for it. -/
theorem outcome_streamFrom_succ (hne : token.statement ≠ .eof) :
    (streamFrom mode (fuel + 1) c).outcome = .ok (token :: after) ↔
      ∃ ahead, Token.step mode c = .ok ahead ∧ ahead.token = token ∧
        (streamFrom mode fuel ahead.cursor).outcome = .ok after := by
  rw [outcome_streamFrom_iff]
  refine exists_congr fun ahead => and_congr_right fun _ => ?_
  constructor
  · rintro (⟨heof, heq⟩ | ⟨-, later, hlater, heq⟩)
    · obtain ⟨rfl, -⟩ := List.cons.inj heq
      exact absurd heof hne
    · obtain ⟨rfl, rfl⟩ := List.cons.inj heq
      exact ⟨rfl, hlater⟩
  · rintro ⟨rfl, hlater⟩
    exact .inr ⟨hne, after, hlater, rfl⟩

/-- The tokens in front of a token are those of as many calls. -/
theorem outcome_streamFrom_append (hbefore : ∀ t ∈ before, t.statement ≠ .eof)
    (hne : token.statement ≠ .eof) :
    (streamFrom mode (before.length + (fuel + 1)) c).outcome = .ok (before ++ token :: after) ↔
      ∃ left ahead, nextTokens? mode before.length c = some (before, left) ∧
        Token.step mode left = .ok ahead ∧ ahead.token = token ∧
        (streamFrom mode fuel ahead.cursor).outcome = .ok after := by
  induction before generalizing c with
  | nil =>
    rw [List.length_nil, Nat.zero_add, List.nil_append, outcome_streamFrom_succ hne]
    simp only [nextTokens?, Option.some.injEq, Prod.mk.injEq, true_and]
    constructor
    · rintro ⟨ahead, h⟩
      exact ⟨c, ahead, rfl, h⟩
    · rintro ⟨left, ahead, rfl, h⟩
      exact ⟨ahead, h⟩
  | cons t before ih =>
    obtain ⟨ht, hrest⟩ := List.forall_mem_cons.1 hbefore
    -- the call for the first token takes one step
    have hfuel : (t :: before).length + (fuel + 1) = before.length + (fuel + 1) + 1 := by
      rw [List.length_cons]
      omega
    rw [hfuel, List.cons_append, outcome_streamFrom_succ ht]
    constructor
    · rintro ⟨next, hstep, rfl, h⟩
      obtain ⟨left, ahead, hcalls, h⟩ := (ih hrest).1 h
      refine ⟨left, ahead, ?_, h⟩
      rw [List.length_cons, nextTokens?, hstep]
      dsimp only
      rw [hcalls, Option.map_some]
    · rintro ⟨left, ahead, hcalls, h⟩
      obtain ⟨next, later, hstep, hlater, heq⟩ := nextTokens?_succ hcalls
      obtain ⟨rfl, rfl⟩ := List.cons.inj heq
      exact ⟨next, hstep, rfl, (ih hrest).2 ⟨left, ahead, hlater, h⟩⟩

/-- In front of a token stand no eof token and no more tokens than steps. -/
theorem before_of_streamFrom
    (h : (streamFrom mode fuel c).outcome = .ok (before ++ token :: after)) :
    (∀ t ∈ before, t.statement ≠ .eof) ∧ before.length < fuel := by
  induction before generalizing fuel c with
  | nil =>
    cases fuel with
    | zero => cases h
    | succ fuel => exact ⟨List.forall_mem_nil _, Nat.succ_pos fuel⟩
  | cons t before ih =>
    cases fuel with
    | zero => cases h
    | succ fuel =>
      have ht : t.statement ≠ .eof := by
        obtain ⟨next, -, hnext⟩ := outcome_streamFrom_iff.1 h
        rcases hnext with ⟨-, heq⟩ | ⟨hne, _, -, heq⟩
        · have hnil : before ++ token :: after = [] := (List.cons.inj heq).2
          exact absurd hnil (List.append_ne_nil_of_right_ne_nil before (List.cons_ne_nil _ _))
        · rwa [(List.cons.inj heq).1]
      rw [List.cons_append, outcome_streamFrom_succ ht] at h
      obtain ⟨ahead, -, -, hlater⟩ := h
      obtain ⟨hbefore, hshort⟩ := ih hlater
      exact ⟨List.forall_mem_cons.2 ⟨ht, hbefore⟩, Nat.succ_lt_succ hshort⟩

theorem shared_append (front : List Line) (next next' : Line) (behind behind' : List Line) :
    Shared next next' behind behind' (front ++ next :: behind) (front ++ next' :: behind') := by
  induction front with
  | nil => exact .here
  | cons line front ih => exact ih.cons line

/-- Calls that stop at a line of a text leave that line and those behind it. -/
theorem rest_of_nextTokens?_append {front lines : List Line} {calls : Nat} {tokens : List Token}
    {left : Cursor}
    (h : nextTokens? mode calls (.start first (front ++ lines)) = some (tokens, left))
    (hline : left.line = first + front.length) : left.rest = lines :=
  (rest_of_nextTokens? h hline).trans List.drop_left

theorem skipBlankLines_append {blanks : List Line} (hblanks : ∀ line ∈ blanks, allBlank line = true)
    (hraw : allBlank raw = false) (rest : List Line) :
    skipBlankLines (blanks ++ raw :: rest) = raw :: rest := by
  rw [skipBlankLines, List.dropWhile_append_of_pos hblanks,
    List.dropWhile_cons_of_neg (by simp [hraw])]

/-- A comment between the parameters of a function leaves it a function alike. -/
theorem InParameters.exists_sameFunction (h : InParameters up a b)
    (hignored : ∀ opening ∈ mode.ignored, '(' ∉ opening.dropLast) (htext : IsBalanced text)
    (hfirst : (∀ line ∈ up, allBlank line = true) →
      IsInert text ∧ '\x7b' ∉ text ∧ ']' ∉ text)
    (hmeet : MeetAtBlank a b) (down : List Line) :
    ∃ blanks next behind next' behind', (∀ line ∈ blanks, allBlank line = true) ∧
      up ++ (a ++ b) :: down = blanks ++ next :: behind ∧
      up ++ (a ++ (Comment.block text ++ b)) :: down = blanks ++ next' :: behind' ∧
      SameFunction mode next behind next' behind' := by
  cases h with
  | first hup hbegins hline hopened hopen =>
    obtain ⟨hinert, hbrace, hbracket⟩ := hfirst hup
    exact ⟨up, _, _, _, _, hup, rfl, rfl, .first hignored hinert hbrace hbracket hmeet hbegins
      hline hopened hopen down⟩
  | @later head raw mid parameters depth depth' hup hbegins hlist hopen =>
    have hsplit : up.takeWhile allBlank ++ raw :: mid = up := by
      rw [← hup]
      exact List.takeWhile_append_dropWhile
    have hvisible : allBlank raw = false := eq_false_of_dropWhile hup
    have hline (line : Line) :
        up ++ line :: down = up.takeWhile allBlank ++ raw :: (mid ++ line :: down) := by
      conv_lhs => rw [← hsplit]
      simp
    exact ⟨up.takeWhile allBlank, raw, _, raw, _, List.all_eq_true.1 List.all_takeWhile, hline _,
      hline _, .later htext hvisible hbegins hlist hopen down⟩

/-- A function alike in the place of another gives the same token, and the tokens around it
stay. -/
theorem SameFunction.exchange {front blanks : List Line} {next next' : Line}
    {behind behind' : List Line} (hsame : SameFunction mode next behind next' behind')
    (hblanks : ∀ line ∈ blanks, allBlank line = true)
    (htokens : (stream mode first (front ++ (blanks ++ next :: behind))).outcome =
      .ok (before ++ token :: after))
    (hfunction : token.statement = .function function)
    (hbegin : token.beginLine = first + front.length) :
    ∃ parameters, (stream mode first (front ++ (blanks ++ next' :: behind'))).outcome =
      .ok (before ++ { token with statement := .function { function with parameters } } ::
        after) := by
  obtain ⟨hbefore, hshort⟩ := before_of_streamFrom htokens
  obtain ⟨fuel, hfuel⟩ := Nat.exists_eq_add_of_lt hshort
  have hfuel : (front ++ (blanks ++ next :: behind)).length + 1 = before.length + (fuel + 1) :=
    hfuel
  have hfuel' : (front ++ (blanks ++ next' :: behind')).length + 1 =
      before.length + (fuel + 1) := by
    rw [← hfuel]
    simp [hsame.length_eq]
  rw [stream, hfuel, outcome_streamFrom_append hbefore (by simp [hfunction])] at htokens
  obtain ⟨left, ahead, hcalls, hstep, rfl, hafter⟩ := htokens
  -- the function begins at the lines below `front`
  have hline : left.line = first + front.length := by rw [← beginLine_of_step hstep, hbegin]
  have hrest := rest_of_nextTokens?_append hcalls hline
  have hbeside : (Cursor.start first (front ++ (blanks ++ next :: behind))).Beside next next'
      behind behind' (.start first (front ++ (blanks ++ next' :: behind'))) := by
    refine ⟨rfl, rfl, ?_⟩
    have hshared := shared_append (front ++ blanks) next next' behind behind'
    rwa [List.append_assoc, List.append_assoc] at hshared
  have hleft : behind.length < left.rest.length := by
    rw [hrest, List.length_append, List.length_cons]
    omega
  obtain ⟨left', hcalls', hleft'⟩ := nextTokens?_beside hsame.alike hbeside hcalls hleft
  have hrest' := rest_of_nextTokens?_append hcalls' (hleft'.line_eq.trans hline)
  have hsameLeft : left' = { left with rest := left'.rest } := by
    obtain ⟨line, lines, scopes⟩ := left'
    rw [Cursor.mk.injEq]
    exact ⟨hleft'.line_eq, rfl, hleft'.scopes_eq⟩
  have hskip : skipBlankLines left.rest = next :: behind :=
    hrest ▸ skipBlankLines_append hblanks hsame.alike.visible behind
  have hskip' : skipBlankLines left'.rest = next' :: behind' :=
    hrest' ▸ skipBlankLines_append hblanks hsame.alike.visible' behind'
  have hlength : left'.rest.length = left.rest.length := by
    rw [hrest, hrest']
    simp [hsame.length_eq]
  obtain ⟨ahead', parameters, hstep', htoken', hcursor⟩ :=
    hsame.step hskip hskip' hlength hstep hfunction
  refine ⟨parameters, ?_⟩
  rw [stream, hfuel', outcome_streamFrom_append hbefore (by simp)]
  rw [← hsameLeft] at hstep'
  exact ⟨left', ahead', hcalls', hstep', htoken', hcursor ▸ hafter⟩

/-- **Comments between parameters.**  A block comment on one line that closes the parentheses and
the literals it opens, and that is put in at white space between the parameters of a function,
leaves the tokens of a stream as they are: their number, kinds, names, types and lines.  The text
of the function's parameters is all that changes.  On the line where the function begins the
comment may have no parentheses, quotes, braces and brackets, and no text that statements are
passed over by may go on behind a parenthesis. -/
theorem stream_insert_comment {front : List Line}
    (hignored : ∀ opening ∈ mode.ignored, '(' ∉ opening.dropLast)
    (htokens : (stream mode first (front ++ (up ++ (a ++ b) :: down))).outcome =
      .ok (before ++ token :: after))
    (hfunction : token.statement = .function function)
    (hbegin : token.beginLine = first + front.length) (hplace : InParameters up a b)
    (hmeet : MeetAtBlank a b) (htext : IsBalanced text)
    (hfirst : (∀ line ∈ up, allBlank line = true) →
      IsInert text ∧ '\x7b' ∉ text ∧ ']' ∉ text) :
    ∃ parameters,
      (stream mode first (front ++ (up ++ (a ++ (Comment.block text ++ b)) :: down))).outcome =
        .ok (before ++ { token with statement := .function { function with parameters } } ::
          after) := by
  obtain ⟨blanks, next, behind, next', behind', hblanks, hlines, hlines', hsame⟩ :=
    hplace.exists_sameFunction hignored htext hfirst hmeet down
  rw [hlines] at htokens
  rw [hlines']
  exact hsame.exchange hblanks htokens hfunction hbegin

/-- A function over two lines between other declarations, with something put in between two of
its parameters. -/
def fillLines (put : String) : List Line :=
  ["int n;".toList] ++ (["bool fill(Surface *dst,".toList] ++
    ("    Rect *rect, ".toList ++ (put.toList ++ "int color);".toList)) :: ["int g();".toList])

/-- A comment with parentheses on the second line of a list. -/
theorem stream_insert_comment_fill :
    ∃ before token after function parameters,
      (stream {} 1 (fillLines "")).outcome = .ok (before ++ token :: after) ∧
      token.statement = .function function ∧ token.beginLine = 2 ∧ token.endLine = 4 ∧
      before.length = 1 ∧ after.length = 2 ∧
      (stream {} 1 (fillLines "/* all (if NULL) */")).outcome =
        .ok (before ++ { token with statement := .function { function with parameters } } ::
          after) := by
  have htokens : ∃ before token after function,
      (stream {} 1 (fillLines "")).outcome = .ok (before ++ token :: after) ∧
      token.statement = .function function ∧ token.beginLine = 2 ∧ token.endLine = 4 ∧
      before.length = 1 ∧ after.length = 2 := ⟨[_], _, [_, _], _, rfl, rfl, rfl, rfl, rfl, rfl⟩
  obtain ⟨before, token, after, function, htokens, hfunction, hbegin, hend, hbefore, hafter⟩ :=
    htokens
  have hplace : InParameters ["bool fill(Surface *dst,".toList] "    Rect *rect, ".toList
      "int color);".toList :=
    @InParameters.later _ _ _ _ _ [] "Surface *dst,".toList 1 1 rfl ⟨rfl, rfl⟩ rfl (by decide)
  have hlines : fillLines "/* all (if NULL) */" =
      ["int n;".toList] ++ (["bool fill(Surface *dst,".toList] ++ ("    Rect *rect, ".toList ++
        (Comment.block " all (if NULL) ".toList ++ ("".toList ++ "int color);".toList))) ::
          ["int g();".toList]) := rfl
  obtain ⟨parameters, hcomment⟩ := stream_insert_comment (by decide) htokens hfunction hbegin hplace
    (by decide) (show IsBalanced " all (if NULL) ".toList by decide)
    (fun hblank => absurd (hblank _ List.mem_cons_self) (by decide))
  rw [← hlines] at hcomment
  exact ⟨before, token, after, function, parameters, htokens, hfunction, hbegin, hend, hbefore,
    hafter, hcomment⟩

/-- A parenthesis in a comment that is only closed in the next comment: the function takes the
lines up to there. -/
theorem not_forall_stream_insert_comment :
    ¬∀ (mode : Mode) (first : Int) (front up : List Line) (a b text : Line) (down : List Line)
      (before : List Token) (token : Token) (after : List Token) (function : FunctionHead),
      (stream mode first (front ++ (up ++ (a ++ b) :: down))).outcome =
        .ok (before ++ token :: after) →
      token.statement = .function function → token.beginLine = first + front.length →
      InParameters up a b → MeetAtBlank a b → ¬"*/".toList <:+: text →
      (∀ c ∈ text, isSeparator c = false) →
      ∃ tokens, (stream mode first
          (front ++ (up ++ (a ++ (Comment.block text ++ b)) :: down))).outcome = .ok tokens ∧
        tokens.map (fun t => (t.beginLine, t.endLine)) =
          (before ++ token :: after).map fun t => (t.beginLine, t.endLine) := by
  intro h
  have hplace : InParameters [] "int f(int a ".toList ", int b);".toList :=
    @InParameters.first _ _ _ _ "int f".toList "int a".toList "int a , int b);".toList 1
      (List.forall_mem_nil _) ⟨rfl, rfl⟩ rfl rfl (by decide)
  obtain ⟨tokens, htokens, hlines⟩ := h {} 1 [] [] "int f(int a ".toList ", int b);".toList
    " ( ".toList ["/* ) */".toList, "int g();".toList] [] _ _ _ rfl rfl rfl hplace
    (by decide) (by decide) (List.all_iff_forall_prop.1 (by decide))
  cases htokens
  cases hlines

end Token

end HeaderApi
