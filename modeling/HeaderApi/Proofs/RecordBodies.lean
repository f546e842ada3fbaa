import Mathlib.Data.List.TakeWhile
import HeaderApi.Proofs.BracedStatements
import HeaderApi.Proofs.VisibleTexts

/-!
# Bodies of records

The body of a record is cut out of its lines: on one line between the first opening and the last
closing brace, and over several lines between the two lines with these braces.  The name of a type
definition is looked for behind the last closing brace of the last line.  Both are compared with the
text up to the brace that matches in the code.
-/

namespace HeaderApi

open Text Source

/-! ## The last mark of a text -/

namespace Text

variable {cs rest before last trailer tail : List Char}

/-- The cut lies at the last occurrence: the part behind it is free of the mark. -/
theorem cutAtLast_eq_some_iff {mark : Char} :
    cutAtLast mark cs = some (before, rest) ↔ cs = before ++ mark :: rest ∧ mark ∉ rest := by
  constructor
  · intro h
    refine ⟨cutAtLast_eq_some h, ?_⟩
    obtain ⟨⟨first, last⟩, hcut, heq⟩ := Option.map_eq_some_iff.1 h
    cases heq
    exact fun hmem => (cutAt_eq_some_iff.1 hcut).2 (List.mem_reverse.1 hmem)
  · rintro ⟨rfl, hmem⟩
    have hcut : cutAt mark (before ++ mark :: rest).reverse = some (rest.reverse, before.reverse) :=
      cutAt_eq_some_iff.2 ⟨by simp, fun h => hmem (List.mem_reverse.1 h)⟩
    rw [cutAtLast, hcut, Option.map_some, List.reverse_reverse, List.reverse_reverse]

/-- What follows the last occurrence of a mark, or the whole text. -/
def behindLast (mark : Char) (cs : List Char) : List Char :=
  match cutAtLast mark cs with
  | some (_, tail) => tail
  | none => cs

/-- Behind the last mark of a text without marks stands the whole text. -/
theorem behindLast_of_not_mem {mark : Char} (h : mark ∉ cs) : behindLast mark cs = cs := by
  rw [behindLast]
  split
  · rename_i hcut
    rw [cutAtLast_eq_some hcut] at h
    exact absurd (List.mem_append_right _ List.mem_cons_self) h
  · rfl

/-- A cut at the last mark of a text that has one: it lies there, or behind it. -/
theorem exists_of_cutAtLast_append {mark : Char}
    (h : cutAtLast mark (last ++ mark :: trailer) = some (before, tail)) :
    tail = behindLast mark trailer ∧
      ∃ extra, before = last ++ extra ∧ (extra = [] ↔ mark ∉ trailer) ∧
        ∀ c ∈ extra.head?, c = mark := by
  by_cases hmem : mark ∈ trailer
  · obtain ⟨between, tail', hcut⟩ := exists_cutAtLast hmem
    obtain ⟨htrailer, htail⟩ := cutAtLast_eq_some_iff.1 hcut
    have hlast : cutAtLast mark (last ++ mark :: trailer) =
        some (last ++ mark :: between, tail') :=
      cutAtLast_eq_some_iff.2 ⟨by rw [htrailer]; simp, htail⟩
    rw [hlast] at h
    cases h
    refine ⟨by rw [behindLast, hcut], mark :: between, rfl, by simp [hmem], ?_⟩
    rintro _ ⟨⟩
    rfl
  · rw [cutAtLast_eq_some_iff.2 ⟨rfl, hmem⟩] at h
    cases h
    exact ⟨(behindLast_of_not_mem hmem).symm, [], (List.append_nil _).symm, by simp [hmem], nofun⟩

end Text

namespace Record

/-! ## The line that opens the body -/

variable {base : List Char} {opening : Opening} {line raw : Line}

/-- The first line with an opening brace, what follows that brace on the line, and the lines
below. -/
def firstBrace? : List Line → Option (Line × Line × List Line)
  | [] => none
  | line :: below =>
    match cutAt '\x7b' line with
    | some (_, inside) => some (line, inside, below)
    | none => firstBrace? below

/-- What follows the first opening brace of the code on its line, and the lines below. -/
def codeBrace? : Lexing → List Line → Option (Line × List Line)
  | _, [] => none
  | lexing, line :: below =>
    match openingBrace? lexing line with
    | some (_, inside) => some (inside, below)
    | none => codeBrace? (.start (lexing.after line).inComment) below

/-- The text between the first opening brace of the code and the brace that matches it, line by
line, what follows that brace on its line, and the lines below. -/
def bodyText? (lines : List Line) : Option (Block.Enclosed × List Line) :=
  (codeBrace? .code lines).bind fun (inside, below) => Block.braced .code 1 inside below

/-- The first opening brace of some lines is one of the code, and if its line begins with the colon
of a base, that line ends with it. -/
def OpensPlainly (lines : List Line) : Prop :=
  ∃ opener inside below, firstBrace? lines = some (opener, inside, below) ∧
    codeBrace? .code lines = some (inside, below) ∧
    (startsWith [':'] (trim opener) = true → endsWith ['\x7b'] (trim opener) = true)

/-- The line that opens a body is the first one with an opening brace. -/
theorem findBody_of_firstBrace {here here' rest below : List Line} {offset : Nat}
    {opener inside : Line} {found : BodyLine}
    (hfirst : firstBrace? rest = some (opener, inside, below))
    (hcolon : startsWith [':'] (trim opener) = true → endsWith ['\x7b'] (trim opener) = true)
    (h : findBody name base here offset rest = .ok (some found, here')) :
    found.raw = opener ∧ found.rest = below ∧
      ∃ front, cutAt '\x7b' opener = some (front, inside) := by
  induction rest generalizing base here offset with
  | nil => cases hfirst
  | cons raw rest ih =>
    rw [firstBrace?] at hfirst
    rw [findBody] at h
    dsimp only at h
    split at hfirst
    · rename_i front inside' hcut
      cases hfirst
      -- the line with the brace is not blank, and the search stops at it
      have hvisible : trim opener ≠ [] :=
        List.ne_nil_of_mem (mem_trim_of_mem (mem_of_cutAt hcut) (by decide))
      rw [if_neg hvisible] at h
      split at h
      · rename_i hbase
        rw [if_pos (hcolon (Bool.and_eq_true_iff.1 hbase).1)] at h
        cases h
        exact ⟨rfl, rfl, front, hcut⟩
      · split at h
        · cases h
          exact ⟨rfl, rfl, front, hcut⟩
        · cases h
    · rename_i hcut
      -- a line without a brace can only be passed
      have hbrace : '\x7b' ∉ trim raw := by
        intro hmem
        obtain ⟨front, inside', hcut'⟩ := exists_cutAt (mem_of_mem_trim hmem)
        rw [hcut] at hcut'
        cases hcut'
      split at h
      · exact ih hfirst h
      · split at h
        · rw [if_neg fun hends => hbrace (mem_of_endsWith hends)] at h
          exact ih hfirst h
        · rw [if_neg fun hstarts => hbrace (mem_of_startsWith hstarts)] at h
          cases h

/-- What a record that opens plainly is made of: the text of its block, whose lines are the rest of
the line with the opening brace and the further lines of the block, and the cut of the last of these
at its last closing brace. -/
theorem exists_bodyText_of_read {number : Int} {rest left : List Line} {head : RecordHead}
    (hopening : opening? (trim raw) = some opening)
    (h : read opening raw number rest = .ok (.record head, left))
    (hplain : OpensPlainly (raw :: rest)) :
    ∃ list inside passed inner tail number', bodyText? (raw :: rest) = some (list, left) ∧
      list.Covers (inside :: passed) ∧
      cutAtLast '\x7d' (passed.getLast?.getD inside) = some (inner, tail) ∧
      head.body = (bodyFrom inner passed number').1 ∧
      head.name = String.ofList (finalName opening tail) := by
  obtain ⟨opener, inside, below, hfirst, hcode, hcolon⟩ := hplain
  -- the body is read from the first line with a brace, be it the opening line or a later one
  have hblock : ∃ base here number' front,
      readBody opening base here opener number' below = .ok (.record head, left) ∧
      cutAt '\x7b' opener = some (front, inside) := by
    rw [firstBrace?] at hfirst
    rcases exists_readBody_of_read h with ⟨hopens, hread⟩ | ⟨hopens, line, here, hfind, hread⟩
    · have hbrace := mem_of_mem_trim ((mem_iff_of_opening? hopening).2 hopens)
      obtain ⟨front, inside', hcut⟩ := exists_cutAt hbrace
      rw [hcut] at hfirst
      cases hfirst
      exact ⟨_, _, _, front, hread, hcut⟩
    · cases hcut : cutAt '\x7b' raw with
      | some cut =>
        have hmem := (mem_iff_of_opening? hopening).1
          (mem_trim_of_mem (mem_of_cutAt hcut) (by decide))
        rw [hopens] at hmem
        cases hmem
      | none =>
        rw [hcut] at hfirst
        obtain ⟨rfl, rfl, front, hcut⟩ := findBody_of_firstBrace hfirst hcolon hfind
        exact ⟨_, _, _, front, hread, hcut⟩
  obtain ⟨base, here, number', front, hread, hcut⟩ := hblock
  obtain ⟨inside', passed, inner, tail, hopen, hlast, hhead⟩ := exists_block_of_readBody hread
  obtain ⟨⟨front', hcut'⟩, list, hbraced, hcovers⟩ := Block.exists_braced_of_openBraces hopen
  rw [hcut] at hcut'
  cases hcut'
  cases hhead
  exact ⟨list, inside, passed, inner, tail, number', by rw [bodyText?, hcode]; exact hbraced,
    hcovers, hlast, rfl, rfl⟩

/-! ## The lines of the body -/

/-- Whether the lines of a body are the whole text of its block: on one line when the block has the
last closing brace of the line, and over several lines when nothing visible is on the lines of the
two braces. -/
structure IsWhole (list : Block.Enclosed) : Prop where
  oneLine : ∀ line, list.inside = [line] → '\x7d' ∉ list.trailer
  lines : ∀ first middle last, list.inside = first :: (middle ++ [last]) →
    allBlank first = true ∧ allBlank last = true

variable {list : Block.Enclosed} {inside inner : Line} {passed : List Line} {number : Int}
  {tail : List Char}

/-- A body on one line has the visible text up to the last closing brace. -/
theorem visible_bodyFrom_nil : visible (bodyFrom inner [] number).1.flatten = visible inner := by
  rw [bodyFrom]
  dsimp only
  split
  · rename_i hblank
    rw [visible_eq_nil_iff.2 hblank]
    rfl
  · rw [List.flatten_singleton]

/-- A body on one line lacks nothing when its block has the last closing brace. -/
theorem visible_cut_iff (hinside : list.inside = [line])
    (hcut : cutAtLast '\x7d' (line ++ '\x7d' :: list.trailer) = some (inner, tail)) :
    visible inner = visible list.inside.flatten ↔ IsWhole list := by
  obtain ⟨-, extra, rfl, hextra, hmark⟩ := exists_of_cutAtLast_append hcut
  -- what is too much begins with a closing brace, so it is visible
  have hvisible : visible extra = [] ↔ extra = [] := by
    rw [visible_eq_nil_iff]
    cases extra with
    | nil => simp
    | cons c extra =>
      rw [hmark c rfl]
      simp [show isBlank '\x7d' = false by decide]
  rw [visible_append, hinside, List.flatten_singleton, List.append_right_eq_self, hvisible, hextra]
  constructor
  · intro hmem
    refine ⟨fun _ _ => hmem, fun first middle last h => ?_⟩
    rw [hinside] at h
    simp at h
  · exact fun h => h.oneLine line hinside

/-- The lines between the first and the last one lack nothing when these two are blank. -/
theorem visible_middle_iff {first last : Line} {middle : List Line}
    (hinside : list.inside = first :: (middle ++ [last])) :
    visible middle.flatten = visible list.inside.flatten ↔ IsWhole list := by
  have hsplit : visible list.inside.flatten =
      visible first ++ (visible middle.flatten ++ visible last) := by
    rw [hinside, List.flatten_cons, List.flatten_append, List.flatten_singleton, visible_append,
      visible_append]
  rw [hsplit]
  constructor
  · intro h
    -- the lengths add up, so nothing visible is left for the first and the last line
    have hlength := congrArg List.length h
    simp only [List.length_append] at hlength
    have hfirst : visible first = [] := List.length_eq_zero_iff.1 (by omega)
    have hlast : visible last = [] := List.length_eq_zero_iff.1 (by omega)
    refine ⟨fun line hline => ?_, fun first' middle' last' hlines => ?_⟩
    · rw [hinside] at hline
      simp at hline
    · rw [hinside] at hlines
      obtain ⟨rfl, htail⟩ := List.cons.inj hlines
      obtain ⟨-, hend⟩ := List.append_inj' htail rfl
      obtain ⟨rfl, -⟩ := List.cons.inj hend
      exact ⟨visible_eq_nil_iff.1 hfirst, visible_eq_nil_iff.1 hlast⟩
  · intro h
    obtain ⟨hfirst, hlast⟩ := h.lines first middle last hinside
    rw [visible_eq_nil_iff.2 hfirst, visible_eq_nil_iff.2 hlast, List.nil_append, List.append_nil]

/-- **The lines of a body have the text of its block when they are whole.** -/
theorem visible_bodyFrom_iff (hcovers : list.Covers (inside :: passed))
    (hlast : cutAtLast '\x7d' (passed.getLast?.getD inside) = some (inner, tail)) :
    visible (bodyFrom inner passed number).1.flatten = visible list.inside.flatten ↔
      IsWhole list := by
  obtain ⟨init, last, hinside, hlines⟩ := hcovers
  cases init with
  | nil =>
    -- the block ends on the line of its opening brace
    obtain ⟨rfl, rfl⟩ := List.cons.inj hlines
    rw [visible_bodyFrom_nil]
    exact visible_cut_iff hinside hlast
  | cons first middle =>
    -- the block ends on a later line, and its body is what lies between
    obtain ⟨rfl, hpassed⟩ := List.cons.inj hlines
    have hne : passed ≠ [] := by
      rw [hpassed]
      exact List.concat_ne_nil _ _
    have hbody : (bodyFrom inner passed number).1 = passed.dropLast := by
      unfold bodyFrom
      split
      · exact absurd rfl hne
      · rfl
    rw [hbody, hpassed, List.append_eq, List.dropLast_concat]
    exact visible_middle_iff hinside

/-! ## The name behind the body -/

/-- The word at the front of the code of a text, or else the tag. -/
def nameBehind (tag : List Char) (text : Line) : List Char :=
  let word := (trimStart (code text)).takeWhile isWord
  if word = [] then tag else word

/-- The name of a record that asks for one is the word behind its body, or else its tag. -/
theorem finalName_eq (h : opening.defines = true ∨ opening.name = []) (tail : Line) :
    finalName opening tail = nameBehind opening.name tail := by
  have hnames : (opening.defines || opening.name = []) = true := by simpa using h
  rw [finalName, nameBehind, hnames, Bool.and_true]
  split
  · rename_i hword
    rw [if_neg (of_decide_eq_true hword)]
  · rename_i hword
    rw [if_pos (by simpa using hword)]

/-- What is behind the body on its last line is what follows the last closing brace there. -/
theorem finalName_of_covers (hcovers : list.Covers (inside :: passed))
    (hlast : cutAtLast '\x7d' (passed.getLast?.getD inside) = some (inner, tail)) :
    tail = behindLast '\x7d' list.trailer := by
  obtain ⟨init, last, -, hlines⟩ := hcovers
  have hline : passed.getLast?.getD inside = last ++ '\x7d' :: list.trailer := by
    have hend := congrArg List.getLast? hlines
    rw [List.getLast?_cons, List.getLast?_concat] at hend
    exact Option.some.inj hend
  rw [hline] at hlast
  exact (exists_of_cutAtLast_append hlast).1

end Record

namespace Token

variable {mode : Mode} {c : Cursor} {next : Advance} {head : RecordHead}

/-- **The body of a record.**  A record that opens plainly ends at the brace that matches its
opening brace, and its body has the visible text between the two braces exactly when its lines are
whole. -/
theorem visible_body_of_record (h : step mode c = .ok next)
    (hrecord : next.token.statement = .record head) :
    ∃ raw rest, skipBlankLines c.rest = raw :: rest ∧
      (Record.OpensPlainly (raw :: rest) →
        ∃ list left, Record.bodyText? (raw :: rest) = some (list, left) ∧ next.StopsAt c left ∧
          (visible head.body.flatten = visible list.inside.flatten ↔ Record.IsWhole list)) := by
  obtain ⟨raw, rest, opening, left, hskip, hopening, hread, hstops⟩ :=
    exists_record_of_step h hrecord
  refine ⟨raw, rest, hskip, fun hplain => ?_⟩
  obtain ⟨list, inside, passed, inner, tail, number, htext, hcovers, hlast, hbody, -⟩ :=
    Record.exists_bodyText_of_read hopening hread hplain
  refine ⟨list, left, htext, hstops, ?_⟩
  rw [hbody]
  exact Record.visible_bodyFrom_iff hcovers hlast

/-- A record with braces in a comment and in a literal, and with its own braces at the ends of
lines. -/
def plainLines : List Line :=
  ["struct Mark : Base \x7b", "  int width; // \x7d", "  char sign = '\x7d';", "\x7d;",
    "int after;"].map String.toList

/-- A record with braces in a comment and in a literal keeps all of its text. -/
theorem visible_body_of_record_plain :
    ∃ next head, step {} (.start 1 plainLines) = .ok next ∧
      next.token.statement = .record head ∧ next.token.endLine = 5 ∧
      Record.OpensPlainly plainLines ∧
      ∃ list left, Record.bodyText? plainLines = some (list, left) ∧
        next.StopsAt (.start 1 plainLines) left ∧
        visible head.body.flatten = visible list.inside.flatten ∧ Record.IsWhole list := by
  have hstep : ∃ next head, step {} (.start 1 plainLines) = .ok next ∧
      next.token.statement = .record head ∧ next.token.endLine = 5 ∧
      head.body = (plainLines.drop 1).take 2 := ⟨_, _, rfl, rfl, rfl, rfl⟩
  obtain ⟨next, head, hstep, hrecord, hend, hbody⟩ := hstep
  obtain ⟨raw, rest, hskip, hread⟩ := visible_body_of_record hstep hrecord
  obtain ⟨rfl, rfl⟩ := List.cons.inj hskip
  have hplain : Record.OpensPlainly plainLines := ⟨_, _, _, rfl, rfl, by decide⟩
  obtain ⟨list, left, htext, hstops, hwhole⟩ := hread hplain
  have hvisible : visible head.body.flatten = visible list.inside.flatten := by
    rw [hbody]
    cases htext
    decide
  exact ⟨next, head, hstep, hrecord, hend, hplain, list, left, htext, hstops, hvisible,
    hwhole.1 hvisible⟩

/-- A record whose members share the lines of its braces. -/
def sharedLines : List Line :=
  ["struct Size \x7b int width;", "int height; \x7d;"].map String.toList

/-- Members that share a line with one of the braces are lost. -/
theorem not_forall_visible_body_of_record :
    ¬ ∀ (mode : Mode) (c : Cursor) (next : Advance) (head : RecordHead) (raw : Line)
      (rest : List Line) (list : Block.Enclosed) (left : List Line),
      step mode c = .ok next → next.token.statement = .record head →
      skipBlankLines c.rest = raw :: rest → Record.OpensPlainly (raw :: rest) →
      Record.bodyText? (raw :: rest) = some (list, left) →
      visible head.body.flatten = visible list.inside.flatten := by
  intro h
  have hplain : Record.OpensPlainly sharedLines := ⟨_, _, _, rfl, rfl, by decide⟩
  exact absurd (h {} (.start 1 sharedLines) _ _ _ _ _ _ rfl rfl rfl hplain rfl) (by decide)

/-- **The name of a type definition, or of a record without a tag.**  It is the word behind the last
closing brace of the line where the body ends, or else the tag, and so the word behind the brace
that matches the opening one, when no closing brace follows that one on its line. -/
theorem name_of_record (h : step mode c = .ok next)
    (hrecord : next.token.statement = .record head) :
    ∃ raw rest opening, skipBlankLines c.rest = raw :: rest ∧
      Record.opening? (trim raw) = some opening ∧
      (Record.OpensPlainly (raw :: rest) → opening.defines = true ∨ opening.name = [] →
        ∃ list left, Record.bodyText? (raw :: rest) = some (list, left) ∧ next.StopsAt c left ∧
          head.name = String.ofList
            (Record.nameBehind opening.name (behindLast '\x7d' list.trailer)) ∧
          ('\x7d' ∉ list.trailer →
            head.name = String.ofList (Record.nameBehind opening.name list.trailer))) := by
  obtain ⟨raw, rest, opening, left, hskip, hopening, hread, hstops⟩ :=
    exists_record_of_step h hrecord
  refine ⟨raw, rest, opening, hskip, hopening, fun hplain hnames => ?_⟩
  obtain ⟨list, inside, passed, inner, tail, number, htext, hcovers, hlast, -, hname⟩ :=
    Record.exists_bodyText_of_read hopening hread hplain
  rw [Record.finalName_eq hnames, Record.finalName_of_covers hcovers hlast] at hname
  refine ⟨list, left, htext, hstops, hname, fun hmem => ?_⟩
  rw [hname, behindLast_of_not_mem hmem]

/-- A type definition with a comment between its body and its name. -/
def definedLines : List Line :=
  ["typedef struct Point \x7b", "  int x; // \x7d", "\x7d /* \x7b */ Place; // a point"].map
    String.toList

/-- The name behind a comment, and in front of another one. -/
theorem name_of_record_defined :
    ∃ next head, step {} (.start 1 definedLines) = .ok next ∧
      next.token.statement = .record head ∧ Record.OpensPlainly definedLines ∧
      ∃ list left, Record.bodyText? definedLines = some (list, left) ∧
        next.StopsAt (.start 1 definedLines) left ∧ '\x7d' ∉ list.trailer ∧
        head.name = String.ofList (Record.nameBehind "Point".toList list.trailer) ∧
        head.name = "Place" := by
  have hstep : ∃ next head, step {} (.start 1 definedLines) = .ok next ∧
      next.token.statement = .record head ∧ head.name = "Place" := ⟨_, _, rfl, rfl, rfl⟩
  obtain ⟨next, head, hstep, hrecord, hname⟩ := hstep
  obtain ⟨raw, rest, opening, hskip, hopening, hread⟩ := name_of_record hstep hrecord
  obtain ⟨rfl, rfl⟩ := List.cons.inj hskip
  cases hopening
  have hplain : Record.OpensPlainly definedLines := ⟨_, _, _, rfl, rfl, by decide⟩
  obtain ⟨list, left, htext, hstops, -, hbehind⟩ := hread hplain (.inl rfl)
  have hmem : '\x7d' ∉ list.trailer := by
    cases htext
    decide
  exact ⟨next, head, hstep, hrecord, hplain, list, left, htext, hstops, hmem, hbehind hmem, hname⟩

/-- A type definition with a comment that ends with a closing brace. -/
def bracedNoteLines : List Line :=
  ["typedef struct \x7b", "  int x;", "\x7d Point; // ends \x7bPoint\x7d"].map String.toList

/-- A closing brace in a comment behind the name hides the name. -/
theorem not_forall_name_of_record :
    ¬ ∀ (mode : Mode) (c : Cursor) (next : Advance) (head : RecordHead) (raw : Line)
      (rest : List Line) (opening : Record.Opening) (list : Block.Enclosed) (left : List Line),
      step mode c = .ok next → next.token.statement = .record head →
      skipBlankLines c.rest = raw :: rest → Record.opening? (trim raw) = some opening →
      Record.OpensPlainly (raw :: rest) → opening.defines = true ∨ opening.name = [] →
      Record.bodyText? (raw :: rest) = some (list, left) →
      head.name = String.ofList (Record.nameBehind opening.name list.trailer) := by
  intro h
  have hplain : Record.OpensPlainly bracedNoteLines := ⟨_, _, _, rfl, rfl, by decide⟩
  have hname := h {} (.start 1 bracedNoteLines) _ _ _ _ _ _ _ rfl rfl rfl rfl hplain (.inl rfl) rfl
  exact absurd hname (by decide)

end Token

end HeaderApi
