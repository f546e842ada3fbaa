import HeaderApi.Entry.Printer
import HeaderApi.Proofs.Blocks
import HeaderApi.Token.Stream

/-!
# Printed doc comments

A printed doc comment is read back as one token: its lines come without the blanks at their ends,
and the text as a whole without those around it.  A doc that is in that form already is given back
as it stands.
-/

namespace HeaderApi

open Text

/-! ## Block comments -/

namespace Comment

/-- The texts of a block comment run up to the first of its lines that holds the end mark. -/
theorem blockTexts_append {text last before : Line} {texts : List Line}
    (htexts : ∀ t ∈ text :: texts, ¬"*/".toList <:+: t)
    (hlast : before? "*/".toList last = some before) (rest : List Line) :
    blockTexts text (texts ++ last :: rest) = .ok (text :: texts ++ [before], rest) := by
  induction texts generalizing text with
  | nil =>
    have htext := before?_eq_none_iff.2 (htexts text (by simp))
    have hblock : blockTexts last rest = .ok ([before], rest) := by
      cases rest <;> rw [blockTexts, hlast]
    rw [List.nil_append, blockTexts, htext]
    simp [hblock, Except.map]
  | cons next texts ih =>
    have htext := before?_eq_none_iff.2 (htexts text (by simp))
    have hnext := ih fun t ht => htexts t (List.mem_cons_of_mem text ht)
    rw [List.cons_append, blockTexts, htext]
    simp [hnext, Except.map]

variable {indent : Line} (hindent : ∀ c ∈ indent, isBlank c = true)

include hindent

/-- The star in front of a printed line is dropped, with one blank behind it. -/
theorem dropStar_star (text : Line) :
    dropStar (indent ++ " *".toList ++ text) = dropBlank text := by
  have htrim : trimStart (indent ++ " *".toList ++ text) = '*' :: text := by
    rw [List.append_assoc, trimStart_append_of_blank hindent]
    rfl
  rw [dropStar, htrim]
  rfl

/-- The star in front of a printed line is dropped, but not what the line is indented by itself. -/
theorem dropStar_printed (line : Line) :
    dropStar (trimEnd (indent ++ " * ".toList ++ line)) = trimEnd line := by
  -- Of a blank line only the star is printed, without the space behind it.
  by_cases hline : trimEnd line = []
  · have htail : ∀ c ∈ ' ' :: line, isBlank c = true :=
      List.forall_mem_cons.2 ⟨rfl, allBlank_of_trimEnd_eq_nil hline⟩
    have hprinted : indent ++ " * ".toList ++ line = indent ++ " *".toList ++ ' ' :: line := by simp
    have hstar : trimEnd (indent ++ " *".toList) = indent ++ trimEnd " *".toList :=
      trimEnd_append_of_ne_nil (by decide)
    have hdrop := dropStar_star hindent []
    rw [List.append_nil] at hdrop
    rw [hprinted, trimEnd_append_of_blank htail, hstar, hline]
    exact hdrop
  · have hprinted : indent ++ " * ".toList ++ trimEnd line
        = indent ++ " *".toList ++ ' ' :: trimEnd line := by simp
    rw [trimEnd_append_of_ne_nil hline, hprinted, dropStar_star hindent]
    rfl

/-- A printed line holds the end mark only if the line itself does. -/
theorem not_infix_printed {line : Line} (h : ¬"*/".toList <:+: line) :
    ¬"*/".toList <:+: trimEnd (indent ++ " * ".toList ++ line) := by
  intro hoccurs
  have hprinted : "*/".toList <:+: indent ++ ' ' :: '*' :: ' ' :: line := by
    simpa using hoccurs.trans (prefix_of_trimEnd _).isInfix
  have hstar : '*' ∉ indent := fun hmem => absurd (hindent _ hmem) (by decide)
  have hspace : "*/".toList <:+: [' '] ++ '*' :: ' ' :: line := infix_of_infix_append hstar hprinted
  have hbehind : "*/".toList <:+: '*' :: ' ' :: line := infix_of_infix_append (by decide) hspace
  rcases List.infix_cons_iff.1 hbehind with hfront | hoccurs
  · simp at hfront
  · have hline : "*/".toList <:+: [' '] ++ line := hoccurs
    exact h (infix_of_infix_append (by decide) hline)

/-- In front of the closing mark of a printed doc stands its indent. -/
theorem before?_closing :
    before? "*/".toList (indent ++ " */".toList) = some (indent ++ [' ']) := by
  induction indent with
  | nil => rfl
  | cons c indent ih =>
    obtain ⟨hc, hindent⟩ := List.forall_mem_cons.1 hindent
    have hstar : '*' ≠ c := by rintro rfl; exact absurd hc (by decide)
    have hstart : startsWith "*/".toList (c :: (indent ++ " */".toList)) = false := by
      simp [startsWith, after?, hstar]
    rw [List.cons_append, before?, hstart, ih hindent]
    rfl

/-- The lines of a printed comment are given back without the blanks at their ends and, as a whole,
trimmed. -/
theorem readBlock_printed {texts : List Line} (htexts : ∀ t ∈ texts, ¬"*/".toList <:+: t)
    (rest : List Line) :
    readBlock "/**".toList
        (texts.map (fun t => trimEnd (indent ++ " * ".toList ++ t)) ++
          (indent ++ " */".toList) :: rest) =
      .ok (.doc (String.ofList (trim (joinLines (texts.map trimEnd)))), rest) := by
  have hprinted : ∀ t ∈ [] :: texts.map (fun t => trimEnd (indent ++ " * ".toList ++ t)),
      ¬"*/".toList <:+: t := by
    intro t ht
    rcases List.mem_cons.1 ht with rfl | ht
    · simp
    · obtain ⟨line, hline, rfl⟩ := List.mem_map.1 ht
      exact not_infix_printed hindent (htexts line hline)
  have hblock := blockTexts_append hprinted (before?_closing hindent) rest
  have hstars : (texts.map fun t => trimEnd (indent ++ " * ".toList ++ t)).map dropStar
      = texts.map trimEnd := by
    rw [List.map_map]
    exact List.map_congr_left fun t _ => dropStar_printed hindent t
  have hblank : ∀ c ∈ indent ++ [' '], isBlank c = true := by
    intro c hc
    rcases List.mem_append.1 hc with hc | hc
    · exact hindent c hc
    · exact List.mem_singleton.1 hc ▸ rfl
  have hlast : dropStar (indent ++ [' ']) = indent ++ [' '] := by
    have htrim : trimStart (indent ++ [' ']) = [] := List.dropWhile_eq_nil_iff.2 hblank
    rw [dropStar, htrim]
  -- The first and the last line hold nothing but the marks and blanks.
  have htrim : trim (joinLines ([] :: (texts.map trimEnd ++ [indent ++ [' ']])))
      = trim (joinLines (texts.map trimEnd)) := by
    rw [joinLines_cons _ (by simp), List.nil_append, trim_cons_of_blank rfl]
    by_cases hnil : texts.map trimEnd = []
    · rw [hnil, List.nil_append, joinLines_singleton, joinLines_nil]
      have hnone : trim ([] ++ (indent ++ [' '])) = trim [] := trim_append_of_blank hblank
      exact hnone
    · rw [joinLines_concat _ hnil, trim_append_of_blank (List.forall_mem_cons.2 ⟨rfl, hblank⟩)]
  have hopen : (startsWith "/**".toList "/**".toList && !startsWith "/**/".toList "/**".toList)
      = true := by decide
  rw [readBlock, if_pos hopen]
  simp only [show "/**".toList.drop 3 = [] from rfl, hblock, Except.map]
  rw [List.cons_append, dropBackMark, List.map_cons, List.map_append, hstars, List.map_singleton,
    hlast]
  · rw [show dropStar [] = [] from rfl, htrim]
  · simp

end Comment

/-! ## Docs -/

/-- The form in which a doc is read: its lines without the blanks at their ends, and the text as a
whole without those around it. -/
def docForm (doc : List Char) : List Char := trim (joinLines ((lines doc).map trimEnd))

/-- A trimmed doc with line feeds only between its lines, which have no blanks at their ends, is in
the form in which it is read. -/
theorem docForm_eq_self {doc : List Char} (htrim : trim doc = doc)
    (hseparator : ∀ c ∈ doc, isSeparator c = true → c = '\n')
    (hlines : ∀ line ∈ lines doc, trimEnd line = line) : docForm doc = doc := by
  rw [docForm, List.map_congr_left hlines, List.map_id',
    joinLines_lines hseparator (getLast?_ne_of_trim htrim), htrim]

/-- The only line ends in the form of a doc are line feeds. -/
theorem isSeparator_docForm {doc : List Char} {c : Char} (hc : c ∈ docForm doc)
    (hseparator : isSeparator c = true) : c = '\n' := by
  obtain ⟨tail, htail, -⟩ := dropEndWhile_append isBlank
    (trimStart (joinLines ((lines doc).map trimEnd)))
  have hstart : c ∈ trimStart (joinLines ((lines doc).map trimEnd)) :=
    htail ▸ List.mem_append_left tail hc
  rcases mem_joinLines ((List.dropWhile_suffix isBlank).subset hstart) with hfeed | ⟨l, hl, hmem⟩
  · exact hfeed
  · obtain ⟨line, hline, rfl⟩ := List.mem_map.1 hl
    have hfalse := isUnbroken_of_mem_lines hline c ((prefix_of_trimEnd line).subset hmem)
    rw [hseparator] at hfalse
    cases hfalse

/-- The form in which a doc is read has no blanks at the ends of its lines. -/
theorem trimEnd_of_mem_pieces_docForm {doc : List Char} {line : Line}
    (h : line ∈ pieces '\n' (docForm doc)) : trimEnd line = line := by
  by_cases hnil : (lines doc).map trimEnd = []
  · rw [docForm, hnil] at h
    rw [List.mem_singleton.1 h]
    rfl
  · -- It is a line of the doc from which no blanks at the end are left to take.
    obtain ⟨front, back, -, hback, hmem⟩ := exists_mem_pieces_trim h
    rw [pieces_joinLines hnil, flatMap_pieces] at hmem
    · obtain ⟨whole, -, hwhole⟩ := List.mem_map.1 hmem
      have hself : trimEnd (front ++ line) = front ++ (line ++ back) := by
        rw [← trimEnd_append_of_blank hback, ← hwhole, trimEnd_trimEnd, hwhole, List.append_assoc]
      by_cases hline : trimEnd line = []
      · rw [trimEnd_append_of_blank (allBlank_of_trimEnd_eq_nil hline)] at hself
        have hlength := (prefix_of_trimEnd front).length_le
        rw [hself, List.length_append, List.length_append] at hlength
        rw [List.length_eq_zero_iff.1 (by omega : line.length = 0)]
        rfl
      · rw [trimEnd_append_of_ne_nil hline, List.append_cancel_left_eq] at hself
        have hlength := (prefix_of_trimEnd line).length_le
        rw [hself, List.length_append] at hlength
        rw [hself, List.length_eq_zero_iff.1 (by omega : back.length = 0), List.append_nil]
    · intro l hl
      obtain ⟨whole, hwhole, rfl⟩ := List.mem_map.1 hl
      exact fun hfeed => (isUnbroken_of_mem_lines hwhole).newline_not_mem
        ((prefix_of_trimEnd whole).subset hfeed)

/-- What was read is read again as it is. -/
theorem docForm_docForm (doc : List Char) : docForm (docForm doc) = docForm doc := by
  have htrim : trim (docForm doc) = docForm doc := trim_trim _
  refine docForm_eq_self htrim (fun c hc => isSeparator_docForm hc) fun line hline => ?_
  by_cases hnil : docForm doc = []
  · rw [hnil] at hline
    cases hline
  · rw [lines_eq_pieces hnil (fun c hc => isSeparator_docForm hc) (getLast?_ne_of_trim htrim)]
      at hline
    exact trimEnd_of_mem_pieces_docForm hline

/-- A doc in the form in which docs are read: trimmed, its lines ended by line feeds and without
blanks at their ends, and without the mark that ends a comment. -/
structure IsPlainDoc (doc : List Char) : Prop where
  trimmed : trim doc = doc
  separator : ∀ c ∈ doc, isSeparator c = true → c = '\n'
  trimmedLines : ∀ line ∈ lines doc, trimEnd line = line
  unmarked : ¬"*/".toList <:+: doc

namespace IsPlainDoc

variable {doc : List Char}

instance : Decidable (IsPlainDoc doc) :=
  decidable_of_iff (trim doc = doc ∧ (doc.all fun c => isSeparator c → c = '\n') = true ∧
      (∀ line ∈ lines doc, trimEnd line = line) ∧ ¬"*/".toList <:+: doc)
    ⟨fun h => ⟨h.1, List.all_iff_forall_prop.1 h.2.1, h.2.2.1, h.2.2.2⟩,
      fun h => ⟨h.1, List.all_iff_forall_prop.2 h.2, h.3, h.4⟩⟩

/-- The lines of a plain doc make up the doc when they are read. -/
theorem docForm_eq (h : IsPlainDoc doc) : docForm doc = doc :=
  docForm_eq_self h.trimmed h.separator h.trimmedLines

theorem unmarked_lines (h : IsPlainDoc doc) : ∀ line ∈ lines doc, ¬"*/".toList <:+: line :=
  fun _ hline hoccurs => h.unmarked (hoccurs.trans (infix_of_mem_lines hline))

end IsPlainDoc

namespace Token

/-- A printed doc comment is one statement, whatever follows it. -/
theorem readStatement_docLines (mode : Mode) (number : Int) (scopes : List Scope) {indent : Line}
    (hindent : ∀ c ∈ indent, isBlank c = true) {texts : List Line}
    (htexts : ∀ t ∈ texts, ¬"*/".toList <:+: t) (rest : List Line) :
    readStatement mode (indent ++ "/**".toList) number scopes
        (texts.map (fun t => trimEnd (indent ++ " * ".toList ++ t)) ++
          (indent ++ " */".toList) :: rest) =
      .ok {
        statement := .doc (String.ofList (trim (joinLines (texts.map trimEnd))))
        scopes
        rest } := by
  have htrim : trim (indent ++ "/**".toList) = "/**".toList := by
    rw [trim, trimStart_append_of_blank hindent]
    decide
  have hmarker : Comment.isForwardMarker "/**".toList = false := by decide
  have hpragma : Directive.isImplementation "/**".toList = false := by decide
  have hline : startsWith "//".toList "/**".toList = false := by decide
  have hblock : startsWith "/*".toList "/**".toList = true := by decide
  rw [readStatement]
  simp only [htrim, hmarker, hpragma, hline, hblock, Comment.readBlock_printed hindent htexts,
    Bool.false_eq_true, if_false, if_true, Except.map]

/-! ## Tokens -/

variable {mode : Mode} {raw : Line} {left rest : List Line} {line : Int} {statement : Statement}

/-- The token of a statement that leaves a line which is not blank, or none. -/
theorem step_of_read (token : Token) (last : Int) {scopes scopes' : List Scope}
    (hraw : allBlank raw = false)
    (hread : readStatement mode raw line scopes rest =
      .ok { statement, scopes := scopes', rest := left })
    (hleft : skipBlankLines left = left)
    (hlast : last = line + (rest.length + 1) - left.length)
    (htoken : token = ⟨statement, line, last, indentation raw⟩) :
    step mode ⟨line, raw :: rest, scopes⟩ =
      .ok ⟨token, ⟨last, left, scopes'⟩, if token.isLarge then [largeLine token] else []⟩ := by
  have hskip : skipBlankLines (raw :: rest) = raw :: rest :=
    List.dropWhile_cons_of_neg (by simp [hraw])
  have hnumber : (Cursor.moveTo ⟨line, raw :: rest, scopes⟩ (raw :: rest)).line = line := by
    simp [Cursor.moveTo]
  have hmove : Cursor.moveTo ⟨line, raw :: rest, scopes⟩ left = ⟨last, left, scopes⟩ := by
    simp [Cursor.moveTo, hlast]
  simp only [step, hskip, hnumber, hread, advance, hleft, hmove, htoken, List.nil_append]

/-- The token of such a statement when it is of normal size. -/
theorem step_of_readStatement {scopes scopes' : List Scope} (hraw : allBlank raw = false)
    (hread : readStatement mode raw line scopes rest =
      .ok { statement, scopes := scopes', rest := left })
    (hleft : skipBlankLines left = left) {last : Int}
    (hlast : last = line + (rest.length + 1) - left.length)
    (hsmall : (⟨statement, line, last, indentation raw⟩ : Token).isLarge = false) :
    step mode ⟨line, raw :: rest, scopes⟩ =
      .ok ⟨⟨statement, line, last, indentation raw⟩, ⟨last, left, scopes'⟩, []⟩ := by
  rw [step_of_read _ last hraw hread hleft hlast rfl, hsmall]
  rfl

theorem streamFrom_cons {fuel : Nat} {c : Cursor} {next : Advance} {tokens : List Token} {log : Log}
    (hstep : step mode c = .ok next) (hne : next.token.statement ≠ .eof)
    (hlater : streamFrom mode fuel next.cursor = ⟨log, .ok tokens⟩) :
    streamFrom mode (fuel + 1) c = ⟨next.log ++ log, .ok (next.token :: tokens)⟩ := by
  simp only [streamFrom, hstep, if_neg hne, hlater, Except.map]

theorem streamFrom_nil (mode : Mode) (fuel : Nat) (line : Int) :
    streamFrom mode (fuel + 1) ⟨line, [], []⟩ = ⟨[], .ok [⟨.eof, line, line, 0⟩]⟩ := rfl

/-- A printed doc comment is the first token of the lines that it opens. -/
theorem streamFrom_docLines {indent : Line} (hindent : ∀ c ∈ indent, isBlank c = true)
    {doc : String} (hne : doc ≠ "") (hdoc : ∀ l ∈ lines doc.toList, ¬"*/".toList <:+: l)
    (hrest : skipBlankLines rest = rest) {last : Int}
    (hlast : last = line + (docLines indent doc).length) {fuel : Nat} {log : Log}
    {tokens : List Token} (hlater : streamFrom mode fuel ⟨last, rest, []⟩ = ⟨log, .ok tokens⟩) :
    streamFrom mode (fuel + 1) ⟨line, docLines indent doc ++ rest, []⟩ =
      ⟨log, .ok (⟨.doc (String.ofList (docForm doc.toList)), line, last, indent.length⟩ ::
        tokens)⟩ := by
  have hindentation : indentation (indent ++ "/**".toList) = indent.length :=
    indentation_append hindent (by decide) ['*', '*']
  have hvisible : allBlank (indent ++ "/**".toList) = false := by
    simp [allBlank, show isBlank '/' = false by decide]
  have hlines : docLines indent doc ++ rest = (indent ++ "/**".toList) ::
      ((lines doc.toList).map (fun l => trimEnd (indent ++ " * ".toList ++ l)) ++
        (indent ++ " */".toList) :: rest) := by
    simp [docLines, hne]
  have hlength : (docLines indent doc).length = (lines doc.toList).length + 2 := by
    simp [docLines, hne]
  have hread := readStatement_docLines mode line [] hindent hdoc rest
  have hend : last = line + (((lines doc.toList).map
      (fun l => trimEnd (indent ++ " * ".toList ++ l)) ++
        (indent ++ " */".toList) :: rest).length + 1) - rest.length := by
    rw [hlast, hlength]
    simp
    omega
  have hstep := step_of_readStatement hvisible hread hrest hend rfl
  rw [hindentation] at hstep
  rw [hlines]
  exact streamFrom_cons hstep (by simp) hlater

/-- **Reading a printed doc.**  A doc without the mark that ends a comment is read back from its
printed lines as one token, which covers them all, in the form in which docs are read; a doc that
is in that form already is read as it stands. -/
theorem stream_docLines (mode : Mode) (first : Int) {indent : Line}
    (hindent : ∀ c ∈ indent, isBlank c = true) {doc : String} (hne : doc ≠ "")
    (hdoc : ∀ l ∈ lines doc.toList, ¬"*/".toList <:+: l) :
    stream mode first (docLines indent doc) =
      ⟨[], .ok [
        ⟨.doc (String.ofList (docForm doc.toList)), first, first + (docLines indent doc).length,
          indent.length⟩,
        ⟨.eof, first + (docLines indent doc).length, first + (docLines indent doc).length, 0⟩]⟩ ∧
    ∀ source, docForm source = doc.toList → String.ofList (docForm doc.toList) = doc := by
  constructor
  · obtain ⟨fuel, hfuel⟩ : ∃ fuel, (docLines indent doc).length = fuel + 1 :=
      Nat.exists_eq_succ_of_ne_zero (by simp [docLines, hne])
    have hend := streamFrom_nil mode fuel (first + (docLines indent doc).length)
    have htokens := streamFrom_docLines hindent hne hdoc rfl (Eq.refl (first + _)) hend
    rwa [List.append_nil, ← hfuel] at htokens
  · intro source hsource
    rw [← hsource, docForm_docForm, hsource, String.ofList_toList]

/-- A doc with stars, slashes, quotes and braces at the ends of its lines. -/
def starredDoc : String := "* Stars.  \n\n\t/* {x} **\n / \"y  \n"

/-- A doc with stars, blank lines and indents of its own, printed with a tab. -/
theorem stream_docLines_starred :
    (∀ c ∈ "\t ".toList, isBlank c = true) ∧ starredDoc ≠ "" ∧
      (∀ l ∈ lines starredDoc.toList, ¬"*/".toList <:+: l) ∧
      stream {} 5 (docLines "\t ".toList starredDoc) =
        ⟨[], .ok [⟨.doc "* Stars.\n\n\t/* {x} **\n / \"y", 5, 11, 2⟩, ⟨.eof, 11, 11, 0⟩]⟩ := by
  have hindent : ∀ c ∈ "\t ".toList, isBlank c = true := List.all_eq_true.1 (by decide)
  have hne : starredDoc ≠ "" := by decide
  have hdoc : ∀ l ∈ lines starredDoc.toList, ¬"*/".toList <:+: l := by decide
  refine ⟨hindent, hne, hdoc, ?_⟩
  rw [(stream_docLines {} 5 hindent hne hdoc).1]
  rfl

end Token

end HeaderApi
