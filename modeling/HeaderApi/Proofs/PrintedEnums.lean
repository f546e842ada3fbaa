import HeaderApi.Proofs.DocumentedEntries
import HeaderApi.Proofs.FunctionHeads

/-!
# Printed enums

An enum that is printed with its docs is read back as the same entry, with its enumerators in order:
neither the docs, whatever braces or quotes they hold, nor the values end the body early, and each
enumerator takes the doc in front of it.
-/

namespace HeaderApi

open Text

/-! ## Lines without braces in their code -/

namespace Source

variable {cs : List Char}

/-- Code without comment marks and quotes is left as it is. -/
theorem stripFrom_code_append (h : ∀ c ∈ cs, c ≠ '/' ∧ isQuote c = false) (rest : List Char) :
    stripFrom .code (cs ++ rest) = (cs ++ (stripFrom .code rest).1, (stripFrom .code rest).2) := by
  induction cs with
  | nil => rfl
  | cons c cs ih =>
    obtain ⟨⟨hslash, hquote⟩, hcs⟩ := List.forall_mem_cons.1 h
    rw [List.cons_append, stripFrom, if_neg (by simp [hquote]), ih hcs]
    · rfl
    · intro tail hc
      exact absurd hc hslash
    · intro tail hc
      exact absurd hc hslash

/-- A comment without the mark that ends it goes on behind the line. -/
theorem stripFrom_comment (h : ¬"*/".toList <:+: cs) : stripFrom .comment cs = ([], true) := by
  induction cs with
  | nil => simp
  | cons c cs ih =>
    rw [List.infix_cons_iff, not_or] at h
    rw [stripFrom, ih h.2]
    rintro tail rfl rfl
    exact h.1 ⟨tail, rfl⟩

/-- Inside of a comment a text without stars is passed over. -/
theorem stripFrom_comment_append (h : '*' ∉ cs) (rest : List Char) :
    stripFrom .comment (cs ++ rest) = stripFrom .comment rest := by
  induction cs with
  | nil => rfl
  | cons c cs ih =>
    obtain ⟨hc, hcs⟩ := not_or.1 (List.mem_cons.not.1 h)
    rw [List.cons_append, stripFrom, ih hcs]
    rintro tail rfl
    exact fun _ => hc rfl

end Source

namespace Block

open Source

/-- A brace. -/
def isBrace (c : Char) : Bool := c = '\x7b' || c = '\x7d'

/-- A character that neither begins a comment or a literal nor is a brace. -/
def IsOrdinary (c : Char) : Prop := c ∉ "/\"'\x7b\x7d".toList

/-- An ordinary character is none of those that matter. -/
theorem IsOrdinary.eq_false {c : Char} (h : IsOrdinary c) :
    (c ≠ '/' ∧ isQuote c = false) ∧ isBrace c = false := by
  simp only [IsOrdinary, String.reduceToList, List.mem_cons, List.not_mem_nil, or_false,
    not_or] at h
  simp [isQuote, isBrace, h]

/-- A blank is an ordinary character. -/
theorem isOrdinary_of_isBlank {c : Char} (h : isBlank c = true) : IsOrdinary c := by
  intro hmem
  simp only [String.reduceToList, List.mem_cons, List.not_mem_nil, or_false] at hmem
  rcases hmem with rfl | rfl | rfl | rfl | rfl <;> exact absurd h (by decide)

/-- A character of an identifier is an ordinary one. -/
theorem isOrdinary_of_isPlainChar {c : Char} (h : isPlainChar c = true) : IsOrdinary c := by
  intro hmem
  simp only [String.reduceToList, List.mem_cons, List.not_mem_nil, or_false] at hmem
  rcases hmem with rfl | rfl | rfl | rfl | rfl <;> exact absurd h (by decide)

/-- A line of such characters is code. -/
theorem strip_of_isOrdinary {line : Line} (h : ∀ c ∈ line, IsOrdinary c) :
    strip line false = (line, false) := by
  have hcode := stripFrom_code_append (fun c hc => (h c hc).eq_false.1) []
  rw [List.append_nil, stripFrom_nil_code, List.append_nil] at hcode
  exact hcode

instance : DecidablePred IsOrdinary := fun c => inferInstanceAs (Decidable (c ∉ _))

/-- Lines whose code holds no brace.  The flags tell whether a block comment is open before and
behind them. -/
inductive Braceless : Bool → List Line → Bool → Prop
  | nil {inComment : Bool} : Braceless inComment [] inComment
  | cons {inComment after : Bool} {line : Line} {lines : List Line}
      (hcode : ∀ c ∈ (strip line inComment).1, isBrace c = false)
      (later : Braceless (strip line inComment).2 lines after) :
      Braceless inComment (line :: lines) after

/-- A line whose code is known goes in front of lines without braces. -/
theorem Braceless.cons_of_strip {inComment middle after : Bool} {line : Line} {code : List Char}
    {lines : List Line} (hstrip : strip line inComment = (code, middle))
    (hcode : ∀ c ∈ code, isBrace c = false) (later : Braceless middle lines after) :
    Braceless inComment (line :: lines) after :=
  .cons (by rwa [hstrip]) (by rwa [hstrip])

theorem Braceless.append {first middle after : Bool} {lines others : List Line}
    (h : Braceless first lines middle) (hothers : Braceless middle others after) :
    Braceless first (lines ++ others) after := by
  induction h with
  | nil => exact hothers
  | cons hcode _ ih => exact .cons hcode (ih hothers)

/-- A text without braces leaves the depth as it is. -/
theorem braceDepth_of_not_isBrace {cs : List Char} (h : ∀ c ∈ cs, isBrace c = false)
    (depth : Int) : braceDepth depth cs = some depth := by
  induction cs with
  | nil => rfl
  | cons c cs ih =>
    obtain ⟨hc, hcs⟩ := List.forall_mem_cons.1 h
    simp only [isBrace, Bool.or_eq_false_iff, decide_eq_false_iff_not] at hc
    rw [braceDepth, if_neg hc.1, if_neg hc.2, ih hcs]

/-- A braced block ends with the line whose code closes it, behind lines without braces. -/
theorem braces_braceless {depth depth' : Int} {inComment after : Bool} {text last : Line}
    {lines : List Line} (htext : braceDepth depth (strip text inComment).1 = some depth')
    (hlines : Braceless (strip text inComment).2 lines after)
    (hlast : braceDepth depth' (strip last after).1 = none) (rest : List Line) :
    braces depth inComment text (lines ++ last :: rest) = some (lines ++ [last], rest) := by
  induction lines generalizing depth inComment text with
  | nil =>
    cases hlines
    have hend : braces depth' (strip text inComment).2 last rest = some ([], rest) := by
      cases rest <;> simp only [braces, hlast]
    simp only [List.nil_append, braces, htext, hend, Option.map_some]
  | cons line lines ih =>
    cases hlines with
    | cons hcode hlater =>
      have hline := ih (braceDepth_of_not_isBrace hcode depth') hlater
      simp only [List.cons_append, braces, htext, hline, Option.map_some]

/-- The code of a printed doc holds no brace, whatever its text holds. -/
theorem braceless_docLines {indent : Line} (hindent : ∀ c ∈ indent, isBlank c = true)
    {doc : String} (hdoc : IsPlainDoc doc.toList) :
    Braceless false (docLines indent doc) false := by
  by_cases hne : doc = ""
  · rw [docLines, if_pos hne]
    exact .nil
  have hordinary : ∀ c ∈ indent, IsOrdinary c := fun c hc =>
    isOrdinary_of_isBlank (hindent c hc)
  -- between the lines that open and close the comment nothing is code
  have hopen : strip (indent ++ "/**".toList) false = (indent, true) := by
    have hmark : stripFrom .code "/**".toList = ([], true) := by simp [stripFrom]
    rw [strip, if_neg Bool.false_ne_true,
      stripFrom_code_append fun c hc => (hordinary c hc).eq_false.1, hmark, List.append_nil]
  have hclose : strip (indent ++ " */".toList) true = ([], false) := by
    have hstar : '*' ∉ indent := fun hmem => absurd (hindent _ hmem) (by decide)
    have hmark : stripFrom .comment " */".toList = ([], false) := by simp [stripFrom]
    rw [strip, if_pos rfl, stripFrom_comment_append hstar, hmark]
  have hlines {ls : List Line} (hls : ∀ l ∈ ls, ¬"*/".toList <:+: l) :
      Braceless true (ls.map fun l => trimEnd (indent ++ " * ".toList ++ l)) true := by
    induction ls with
    | nil => exact .nil
    | cons l ls ih =>
      obtain ⟨hl, hls⟩ := List.forall_mem_cons.1 hls
      have hstrip : strip (trimEnd (indent ++ " * ".toList ++ l)) true = ([], true) :=
        stripFrom_comment (Comment.not_infix_printed hindent hl)
      exact .cons_of_strip hstrip (List.forall_mem_nil _) (ih hls)
  rw [docLines, if_neg hne]
  have hfront := Braceless.cons_of_strip hopen (fun c hc => (hordinary c hc).eq_false.2)
    (hlines hdoc.unmarked_lines)
  exact hfront.append (.cons_of_strip hclose (List.forall_mem_nil _) .nil)

end Block

/-! ## Enumerators -/

/-- An enumerator that can be told from its printed lines. -/
structure Entry.IsEnumerator (e : Entry) : Prop where
  kind : e.kind = .var
  name : isIdentifier e.name.toList = true
  value : ∀ v ∈ e.value, v ≠ "" ∧ trim v.toList = v.toList ∧
    ∀ c ∈ v.toList, c ≠ ',' ∧ Block.IsOrdinary c
  doc : IsPlainDoc e.doc.toList
  unused : e.type = none ∧ e.parameters = none ∧ e.template = none ∧ e.immutable = none ∧
    e.constexpr = none ∧ e.static = none ∧ e.reference = none ∧ e.sourceName = none ∧
    e.beginLine = none ∧ e.declLine = none ∧ e.endLine = none ∧ e.members = none

/-- What the line of an enumerator says. -/
def Signature.enumeratorHead (s : Signature) : VariableHead where
  name := s.name
  type := ""
  initializer := s.value
  doc := none
  static := false
  constexpr := false

theorem isWord_of_isIdentifier {cs : List Char} (h : isIdentifier cs = true) :
    ∀ c ∈ cs, isWord c = true := fun c hc => isWord_of_isPlainChar (isPlainChar_of_mem h c hc)

namespace Enumerator

/-- A value in front of the comma is taken without the blanks around it. -/
theorem splitValue_append {value : List Char} (htrim : trim value = value)
    (hvalue : ∀ c ∈ value, c ≠ ',' ∧ c ≠ '/') (rest : List Char) :
    splitValue (' ' :: (value ++ ',' :: rest)) = (value, ',' :: rest) := by
  have hchars : ∀ c ∈ ' ' :: value, (decide (c ≠ ',') && decide (c ≠ '/')) = true := by
    intro c hc
    rcases List.mem_cons.1 hc with rfl | hc
    · decide
    · simp [hvalue c hc]
  have htake : (' ' :: value ++ ',' :: rest).takeWhile (fun c => c ≠ ',' && c ≠ '/') =
      ' ' :: value := takeWhile_append_cons hchars (by decide)
  have hdrop : (' ' :: value ++ ',' :: rest).dropWhile (fun c => c ≠ ',' && c ≠ '/') =
      ',' :: rest := dropWhile_append_cons hchars (by decide)
  rw [List.cons_append] at htake hdrop
  simp only [splitValue, htake, hdrop, trim_cons_of_blank (show isBlank ' ' = true by rfl), htrim]

/-- The printed line of an enumerator is read as what it says. -/
theorem read?_printed {e : Entry} (h : e.IsEnumerator) :
    read? (e.name.toList ++ (e.valueText ++ [','])) = some e.enumeratorHead := by
  have hword := isWord_of_isIdentifier h.name
  have hname : e.name.toList ≠ [] := isIdentifier_ne_nil h.name
  have hending : ending? [','] = some none := by decide
  have htake {c : Char} (hc : isWord c = false) (tail : List Char) :
      (e.name.toList ++ c :: tail).takeWhile isWord = e.name.toList :=
    takeWhile_append_cons hword hc
  have hdrop {c : Char} (hc : isWord c = false) (tail : List Char) :
      (e.name.toList ++ c :: tail).dropWhile isWord = c :: tail :=
    dropWhile_append_cons hword hc
  have hcomma : isWord ',' = false := by decide
  have hspace : isWord ' ' = false := by decide
  cases hvalue : e.value with
  | none =>
    have htext : e.valueText = [] := by simp only [Signature.valueText, hvalue]
    have hvisible : trimStart [','] = [','] := by decide
    rw [htext, List.nil_append]
    simp [read?, htake hcomma, hdrop hcomma, hvisible, hending, hname, Signature.enumeratorHead,
      hvalue]
  | some v =>
    obtain ⟨hne, htrim, hchars⟩ := h.value v hvalue
    have htext : e.valueText ++ [','] = ' ' :: '=' :: ' ' :: (v.toList ++ [',']) := by
      simp [Signature.valueText, hvalue]
    have hsign : trimStart (' ' :: '=' :: ' ' :: (v.toList ++ [','])) =
        '=' :: ' ' :: (v.toList ++ [',']) := rfl
    -- the value ends at the comma behind it, since it has neither commas nor comments
    have hvalues : ∀ c ∈ v.toList, c ≠ ',' ∧ c ≠ '/' := fun c hc =>
      ⟨(hchars c hc).1, (hchars c hc).2.eq_false.1.1⟩
    have hsplit := splitValue_append htrim hvalues []
    have hnil : v.toList ≠ [] := by simpa using hne
    rw [htext]
    simp [read?, htake hspace, hdrop hspace, hsign, hsplit, hending, hname, hnil,
      Signature.enumeratorHead, hvalue]

end Enumerator

/-- What is printed of the value of an enumerator is made of ordinary characters. -/
theorem Entry.IsEnumerator.isOrdinary_valueText {e : Entry} (h : e.IsEnumerator) :
    ∀ c ∈ e.valueText, Block.IsOrdinary c := by
  intro c hc
  cases hvalue : e.value with
  | none =>
    rw [Signature.valueText, hvalue] at hc
    cases hc
  | some v =>
    rw [Signature.valueText, hvalue] at hc
    rcases List.mem_append.1 hc with hc | hc
    · have hsign : ∀ c ∈ " = ".toList, Block.IsOrdinary c :=
        List.all_iff_forall_prop.1 (by decide)
      exact hsign c hc
    · exact ((h.value v hvalue).2.2 c hc).2

/-- The code of printed enumerators holds no brace. -/
theorem braceless_enumerators {indent : Line} (hindent : ∀ c ∈ indent, isBlank c = true)
    {es : List Entry} (hes : ∀ e ∈ es, e.IsEnumerator) :
    Block.Braceless false (es.flatMap fun e => e.enumeratorLines indent) false := by
  induction es with
  | nil => exact .nil
  | cons e es ih =>
    obtain ⟨he, hes⟩ := List.forall_mem_cons.1 hes
    have hline : ∀ c ∈ indent ++ e.name.toList ++ e.valueText ++ [','], Block.IsOrdinary c := by
      intro c hc
      simp only [List.mem_append, List.mem_singleton, or_assoc] at hc
      rcases hc with hc | hc | hc | rfl
      · exact Block.isOrdinary_of_isBlank (hindent c hc)
      · exact Block.isOrdinary_of_isPlainChar (isPlainChar_of_mem he.name c hc)
      · exact he.isOrdinary_valueText c hc
      · decide
    rw [List.flatMap_cons, Signature.enumeratorLines, List.append_assoc]
    exact (Block.braceless_docLines hindent he.doc).append
      (.cons_of_strip (Block.strip_of_isOrdinary hline) (fun c hc => (hline c hc).eq_false.2)
        (ih hes))

namespace Token

section Enumerators

variable {mode : Mode} {indent : Line} {e : Entry} {es : List Entry}

/-- The tokens of printed enumerators up to the end of the body. -/
def enumeratorTokens (indent : Line) : Int → List Entry → List Token
  | line, [] => [⟨.eof, line, line, 0⟩]
  | line, e :: es =>
    let first := line + (docLines indent e.doc).length
    docTokens indent line e.doc ++
      ⟨.var e.enumeratorHead, first, first + 1, indent.length⟩ ::
        enumeratorTokens indent (first + 1) es

/-- The printed line of an enumerator is read as its statement. -/
theorem readStatement_enumerator (hmode : mode.enumerators = true)
    (hindent : ∀ c ∈ indent, isBlank c = true) (h : e.IsEnumerator) (number : Int)
    (scopes : List Scope) (rest : List Line) :
    readStatement mode (indent ++ e.name.toList ++ e.valueText ++ [',']) number scopes rest =
      .ok { statement := .var e.enumeratorHead, scopes, rest } := by
  have htrim : trim (indent ++ e.name.toList ++ e.valueText ++ [',']) =
      e.name.toList ++ (e.valueText ++ [',']) := by
    have hassoc : indent ++ e.name.toList ++ e.valueText ++ [','] =
        indent ++ (e.name.toList ++ (e.valueText ++ [','])) := by simp
    have hlast :
        e.name.toList ++ (e.valueText ++ [',']) = e.name.toList ++ e.valueText ++ [','] := by
      simp
    obtain ⟨c, cs, hname, hc⟩ := exists_cons_of_isIdentifier h.name
    rw [hassoc, trim, trimStart_append_of_blank hindent, hname, List.cons_append, trimStart_cons hc,
      ← List.cons_append, ← hname, hlast, trimEnd_concat (by decide)]
  rw [readStatement_code mode h.name htrim, readCode, if_pos hmode, Enumerator.read?_printed h]

theorem allBlank_enumerator (indent : Line) (e : Entry) :
    allBlank (indent ++ e.name.toList ++ e.valueText ++ [',']) = false := by
  simp [allBlank, show isBlank ',' = false by decide]

/-- No blank line stands in front of printed enumerators. -/
theorem skipBlankLines_enumerators (indent : Line) (es : List Entry) :
    skipBlankLines (es.flatMap fun e => e.enumeratorLines indent) =
      es.flatMap fun e => e.enumeratorLines indent := by
  cases es with
  | nil => rfl
  | cons e es =>
    have hline := skipBlankLines_of_visible (allBlank_enumerator indent e)
      (es.flatMap fun e => e.enumeratorLines indent)
    simpa [Signature.enumeratorLines] using skipBlankLines_documented indent e.doc hline

/-- Printed enumerators are read one after the other. -/
theorem streamFrom_enumerators (hmode : mode.enumerators = true)
    (hindent : ∀ c ∈ indent, isBlank c = true) (hes : ∀ e ∈ es, e.IsEnumerator) (line : Int)
    {fuel : Nat} (hfuel : (es.flatMap fun e => e.enumeratorLines indent).length < fuel) :
    streamFrom mode fuel ⟨line, es.flatMap fun e => e.enumeratorLines indent, []⟩ =
      ⟨[], .ok (enumeratorTokens indent line es)⟩ := by
  induction es generalizing line fuel with
  | nil =>
    obtain ⟨fuel, rfl⟩ : ∃ fuel', fuel = fuel' + 1 := Nat.exists_eq_succ_of_ne_zero (by omega)
    exact streamFrom_nil mode fuel line
  | cons e es ih =>
    obtain ⟨he, hes⟩ := List.forall_mem_cons.1 hes
    have hraw := allBlank_enumerator indent e
    have hspaces :
        indentation (indent ++ e.name.toList ++ e.valueText ++ [',']) = indent.length := by
      obtain ⟨c, cs, hname, hc⟩ := exists_cons_of_isIdentifier he.name
      rw [hname, List.append_assoc, List.append_assoc]
      exact indentation_append hindent hc _
    have hlines : ((e :: es).flatMap fun e => e.enumeratorLines indent) =
        docLines indent e.doc ++ (indent ++ e.name.toList ++ e.valueText ++ [',']) ::
          es.flatMap fun e => e.enumeratorLines indent := by
      simp [Signature.enumeratorLines]
    rw [hlines] at hfuel ⊢
    -- behind its doc comment an enumerator takes one line and one step
    refine streamFrom_documented hindent he.doc (skipBlankLines_of_visible hraw _)
      (fun fuel hfuel => ?_) hfuel
    obtain ⟨fuel, rfl⟩ : ∃ fuel', fuel = fuel' + 1 := Nat.exists_eq_succ_of_ne_zero (by omega)
    have hread := readStatement_enumerator hmode hindent he (line + (docLines indent e.doc).length)
      [] (es.flatMap fun e => e.enumeratorLines indent)
    have hlast : line + (docLines indent e.doc).length + 1 =
        line + (docLines indent e.doc).length +
          ((es.flatMap fun e => e.enumeratorLines indent).length + 1) -
            (es.flatMap fun e => e.enumeratorLines indent).length := by omega
    have hheight : ¬((10 : Nat) : Int) < line + (docLines indent e.doc).length + 1 -
        (line + (docLines indent e.doc).length) := by omega
    have hstep := step_of_readStatement hraw hread (skipBlankLines_enumerators indent es) hlast
      (decide_eq_false hheight)
    rw [hspaces] at hstep
    exact streamFrom_cons hstep (by simp) (ih hes _ (by simpa using hfuel))

end Enumerators

end Token

/-! ## The opening line of an enum -/

namespace Record

theorem isWord_of_wordEnds {rest : List Char} (h : wordEnds rest = true) :
    ∀ c ∈ rest.head?, isWord c = false := by
  cases rest with
  | nil => simp
  | cons c rest => simpa [wordEnds] using h

/-- A keyword is found in front of a text only where it is the first word. -/
theorem eq_of_after? {word name tail rest : List Char} (hword : ∀ c ∈ word, isWord c = true)
    (hname : ∀ c ∈ name, isWord c = true) (htail : wordEnds tail = true)
    (hrest : wordEnds rest = true) (h : after? word (name ++ tail) = some rest) : name = word := by
  rw [after?_eq_some_iff] at h
  rw [← takeWhile_append_of_head hname (isWord_of_wordEnds htail), h,
    takeWhile_append_of_head hword (isWord_of_wordEnds hrest)]

variable {name base : List Char}

/-- The base of a record behind its colon. -/
def baseText (base : List Char) : List Char := if base = [] then [] else " : ".toList ++ base

/-- The base of an enum is printed behind a blank. -/
theorem head?_baseText (base : List Char) : ∀ c ∈ (baseText base).head?, c = ' ' := by
  rw [baseText]
  split
  · simp
  · intro c hc
    exact (Option.some.inj hc).symm

theorem wordEnds_baseText (base : List Char) : wordEnds (baseText base) = true := by
  rw [baseText]
  split <;> rfl

/-- A name that is no keyword is not taken for one. -/
theorem secondKeyword?_eq_none (hname : isIdentifier name = true) (hclass : name ≠ "class".toList)
    (hstruct : name ≠ "struct".toList) (base : List Char) :
    secondKeyword? (' ' :: (name ++ baseText base)) = none := by
  have hwords := isWord_of_isIdentifier hname
  have hends := wordEnds_baseText base
  have hblanks : afterBlanks? (' ' :: (name ++ baseText base)) = some (name ++ baseText base) := by
    obtain ⟨c, cs, rfl, hc⟩ := exists_cons_of_isIdentifier hname
    exact congrArg some (trimStart_cons hc _)
  -- a keyword at the front of the name is not a word of its own
  have hkeyword : ∀ rest, (after? "class".toList (name ++ baseText base) <|>
      after? "struct".toList (name ++ baseText base)) = some rest → wordEnds rest = false := by
    intro rest hrest
    refine Bool.eq_false_iff.2 fun hword => ?_
    cases hafter : after? "class".toList (name ++ baseText base) with
    | some behind =>
      rw [hafter] at hrest
      obtain rfl : behind = rest := Option.some.inj hrest
      exact hclass (eq_of_after? (List.all_eq_true.1 (by decide)) hwords hends hword hafter)
    | none =>
      rw [hafter] at hrest
      exact hstruct (eq_of_after? (List.all_eq_true.1 (by decide)) hwords hends hword hrest)
  simp only [secondKeyword?, hblanks, Option.bind_eq_bind, Option.bind_some]
  refine Option.bind_eq_none_iff.2 fun rest hrest => ?_
  rw [hkeyword rest hrest]
  rfl

/-- The printed base of an enum is read as its base. -/
theorem tail?_baseText (hbase : base = [] ∨ isIdentifier base = true) :
    tail? name (baseText base) = some (name, base, false) := by
  rcases hbase with rfl | hbase
  · rfl
  · have hplain := isPlainChar_of_mem hbase
    obtain ⟨c, cs, hcons, hc⟩ := exists_cons_of_isIdentifier hbase
    have hne : base ≠ [] := isIdentifier_ne_nil hbase
    have htext : trimStart (baseText base) = ':' :: ' ' :: base := by
      rw [baseText, if_neg hne]
      rfl
    have htrim : trim (' ' :: base) = base := by
      rw [trim_cons_of_blank rfl]
      refine trim_eq_self (fun d hd => ?_) fun d hd => ?_
      · exact isBlank_of_isPlainChar (hplain d (List.mem_of_mem_head? hd))
      · exact isBlank_of_isPlainChar (hplain d (List.mem_of_mem_getLast? hd))
    -- the base is a name, so it runs up to the end of the line
    have hchars : ∀ d ∈ ' ' :: base, (decide (d ≠ '\x7b') && decide (d ≠ ';')) = true := by
      intro d hd
      rcases List.mem_cons.1 hd with rfl | hd
      · decide
      · simp [ne_of_isPlainChar (hplain d hd) (show isPlainChar '\x7b' = false by decide),
          ne_of_isPlainChar (hplain d hd) (show isPlainChar ';' = false by decide)]
    have htake : (' ' :: base).takeWhile (fun d => decide (d ≠ '\x7b') && decide (d ≠ ';')) =
        ' ' :: base := List.takeWhile_eq_self_iff.2 hchars
    have hdrop : (' ' :: base).dropWhile (fun d => decide (d ≠ '\x7b') && decide (d ≠ ';')) = [] :=
      List.dropWhile_eq_nil_iff.2 hchars
    have hclause : baseClause? (' ' :: base) = some (base, false) := by
      simp only [baseClause?, htake, hdrop, htrim]
    simp only [tail?, htext, hclause]

/-- The line that opens an enum with the given name and base. -/
def enumLine (name base : List Char) : Line := "enum".toList ++ ' ' :: (name ++ baseText base)

/-- The opening line of an enum whose name is no keyword, with or without a base. -/
theorem opening?_enumLine (hname : isIdentifier name = true) (hclass : name ≠ "class".toList)
    (hstruct : name ≠ "struct".toList) (hbase : base = [] ∨ isIdentifier base = true) :
    opening? (enumLine name base) = some ⟨false, .enum, name, base, false⟩ := by
  have htext : trimStart (' ' :: (name ++ baseText base)) = name ++ baseText base := by
    obtain ⟨c, cs, rfl, hc⟩ := exists_cons_of_isIdentifier hname
    exact trimStart_cons hc _
  have hchars : ∀ c ∈ name, isNameChar c = true := fun c hc => by
    simp [isNameChar, isWord_of_isIdentifier hname c hc]
  have hbehind : ∀ c ∈ (baseText base).head?, isNameChar c = false := fun c hc =>
    head?_baseText base c hc ▸ by decide
  have htake := takeWhile_append_of_head hchars hbehind
  have hdrop := dropWhile_append_of_head hchars hbehind
  have hsecond := secondKeyword?_eq_none hname hclass hstruct base
  have hdefined : (after? "typedef".toList (enumLine name base) >>= afterBlanks?) = none := rfl
  have hkeyword : keyword? (enumLine name base) = some (.enum, ' ' :: (name ++ baseText base)) :=
    rfl
  simp only [opening?, hdefined, Option.getD_none, hkeyword, Option.bind_eq_bind, Option.bind_some,
    hsecond, htext, htake, hdrop, tail?_baseText hbase]
  rfl

/-- The line that opens an enum ends with an identifier. -/
theorem exists_enumLine_eq (hname : isIdentifier name = true)
    (hbase : base = [] ∨ isIdentifier base = true) :
    ∃ front word, enumLine name base = front ++ word ∧ isIdentifier word = true := by
  rcases hbase with rfl | hbase
  · exact ⟨"enum ".toList, name, congrArg ("enum ".toList ++ ·) (List.append_nil name), hname⟩
  · refine ⟨"enum ".toList ++ (name ++ " : ".toList), base, ?_, hbase⟩
    rw [enumLine, baseText, if_neg (isIdentifier_ne_nil hbase)]
    simp

/-- No blanks stand around the line that opens an enum. -/
theorem trim_enumLine (hname : isIdentifier name = true)
    (hbase : base = [] ∨ isIdentifier base = true) :
    trim (enumLine name base) = enumLine name base := by
  refine trim_eq_self (fun c hc => ?_) fun c hc => ?_
  · obtain rfl : 'e' = c := Option.some.inj hc
    decide
  · obtain ⟨front, word, hline, hword⟩ := exists_enumLine_eq hname hbase
    rw [hline, List.getLast?_append_of_ne_nil _ (isIdentifier_ne_nil hword)] at hc
    exact isBlank_of_isPlainChar (isPlainChar_of_mem hword c (List.mem_of_mem_getLast? hc))

/-- A body may follow the line that opens an enum. -/
theorem mayHaveBody_enumLine (hname : isIdentifier name = true)
    (hbase : base = [] ∨ isIdentifier base = true) : mayHaveBody (enumLine name base) = true := by
  have hplain {word : List Char} (hword : isIdentifier word = true) : ';' ∉ word := fun hmem =>
    absurd (isPlainChar_of_mem hword _ hmem) (by decide)
  have hsemicolon : ';' ∉ enumLine name base := by
    rcases hbase with rfl | hbase
    · simp [enumLine, baseText, hplain hname]
    · simp [enumLine, baseText, isIdentifier_ne_nil hbase, hplain hname, hplain hbase]
  simp [mayHaveBody, hsemicolon]

/-- The body of a record on lines of its own, whose code holds no brace. -/
theorem read_lines {opening : Opening} (hopens : opening.opens = false) {lines : List Line}
    (hlines : Block.Braceless false lines false) (raw : Line) (number : Int) (rest : List Line) :
    read opening raw number (['\x7b'] :: (lines ++ "\x7d;".toList :: rest)) =
      .ok (.record ⟨opening.kind, String.ofList opening.name, String.ofList opening.base, lines,
        number + 2⟩, rest) := by
  have hfirst : Source.strip ['\x7b'] false = (['\x7b'], false) := by decide
  have hlast : Source.strip "\x7d;".toList false = ("\x7d;".toList, false) := by decide
  -- the brace stands alone on its line and is closed behind the lines of the body
  have hopened : Block.braceDepth 0 (Source.strip ['\x7b'] false).1 = some 1 := by decide
  have hbraces : Block.braces 0 false ['\x7b'] (lines ++ "\x7d;".toList :: rest) =
      some (lines ++ ["\x7d;".toList], rest) :=
    Block.braces_braceless hopened (by rwa [hfirst]) (by rw [hlast]; rfl) rest
  have hopen (here : List Line) : Block.openBraces here ['\x7b'] (lines ++ "\x7d;".toList :: rest) =
      .ok ([], lines ++ ["\x7d;".toList], rest) := by
    simp only [Block.openBraces, cutAt, if_true, hbraces]
  have htrim : trim ['\x7b'] = ['\x7b'] := by decide
  have hfind (here : List Line) : findBody opening.name opening.base here 0
      (['\x7b'] :: (lines ++ "\x7d;".toList :: rest)) =
        .ok (some ⟨opening.base, ['\x7b'], 0, lines ++ "\x7d;".toList :: rest⟩, here) := by
    simp [findBody, htrim, startsWith, after?]
  have hclosing : cutAtLast '\x7d' "\x7d;".toList = some ([], [';']) := by decide
  have hword : (trimStart (Source.code [';'])).takeWhile isWord = [] := by decide
  have hname : finalName opening [';'] = opening.name := by
    rw [finalName, hword]
    rfl
  have hbody : bodyFrom [] (lines ++ ["\x7d;".toList]) (number + 1) = (lines, number + 2) := by
    have hnumber : number + 1 + 1 = number + 2 := by omega
    obtain ⟨line, others, hcons⟩ :=
      List.exists_cons_of_ne_nil (List.concat_ne_nil "\x7d;".toList lines)
    rw [bodyFrom.eq_def, hcons]
    dsimp only
    rw [← hcons, List.dropLast_concat, hnumber]
  simp only [read, hopens, Bool.false_eq_true, if_false, hfind, readBody, hopen, bind, Except.bind,
    List.getLast?_concat, Option.getD_some, hclosing, hname, pure, Except.pure, Int.natCast_zero,
    Int.add_zero, hbody]

end Record

namespace Token

open Record

variable {name base : List Char}

/-- The lines of an enum whose body holds no brace in its code are one statement. -/
theorem readStatement_enumLine (hname : isIdentifier name = true) (hclass : name ≠ "class".toList)
    (hstruct : name ≠ "struct".toList) (hbase : base = [] ∨ isIdentifier base = true)
    {lines : List Line} (hlines : Block.Braceless false lines false) (number : Int)
    (scopes : List Scope) (rest : List Line) :
    readStatement {} (enumLine name base) number scopes
        (['\x7b'] :: (lines ++ "\x7d;".toList :: rest)) =
      .ok {
        statement := .record ⟨.enum, String.ofList name, String.ofList base, lines, number + 2⟩
        scopes
        rest } := by
  have henum : isIdentifier "enum".toList = true := by decide
  have hread := readStatement_code {} henum (trim_enumLine hname hbase) number scopes
    (['\x7b'] :: (lines ++ "\x7d;".toList :: rest))
  have hopens : (⟨false, .enum, name, base, false⟩ : Opening).opens = false := rfl
  have hbody := read_lines hopens hlines (enumLine name base) number rest
  have hrecord :
      (if mayHaveBody (enumLine name base) then opening? (enumLine name base) else none) =
        some ⟨false, .enum, name, base, false⟩ := by
    rw [if_pos (mayHaveBody_enumLine hname hbase), opening?_enumLine hname hclass hstruct hbase]
  -- The readers in front of that of records look for other words at the beginning.
  have hdeclaration : readDeclaration (enumLine name base) (enumLine name base) number scopes
      (['\x7b'] :: (lines ++ "\x7d;".toList :: rest)) = .ok {
        statement := .record ⟨.enum, String.ofList name, String.ofList base, lines, number + 2⟩
        scopes
        rest } := by
    have hpointer : Alias.pointer? (enumLine name base) = none := rfl
    have hdefinition : Alias.definition? (enumLine name base) = none := rfl
    have hforward : Alias.forward? (enumLine name base) = none := rfl
    have htypedef : startsWith "typedef".toList (enumLine name base) = false := rfl
    have husing : startsWith "using".toList (enumLine name base) = false := rfl
    simp only [readDeclaration, hrecord, hpointer, hdefinition, hforward, htypedef, husing, hbody,
      Option.filter_some, Bool.false_eq_true, if_false, Except.map]
  have hignored : startsWithAny ({} : Mode).ignored (enumLine name base) = false := rfl
  have hlabel : isAccessLabel (enumLine name base) = false := rfl
  have hlinkage : isLinkage (enumLine name base) = false := rfl
  have hend : startsWith ['\x7d'] (enumLine name base) = false := rfl
  have hbrace : enumLine name base ≠ ['\x7b'] := by simp [enumLine]
  have hnamespace : namespaceName? (enumLine name base) = none := rfl
  have htemplate : templateStart? (enumLine name base) = none := rfl
  rw [hread]
  change readCode {} (enumLine name base) (enumLine name base) number scopes _ = _
  simp only [readCode, hignored, hlabel, hlinkage, hend, hbrace, hnamespace, htemplate,
    Bool.or_self, Bool.false_eq_true, if_false, hdeclaration]

end Token

/-! ## Enums -/

/-- An enum that can be told from its printed lines. -/
structure Entry.IsPlainEnum (e : Entry) : Prop where
  kind : e.kind = .enum
  name : isIdentifier e.name.toList = true
  notKeyword : e.name ≠ "class" ∧ e.name ≠ "struct"
  type : ∀ t ∈ e.type, isIdentifier t.toList = true
  members : ∃ es : List Entry, e.members = some (es.map fun m => (m.name, .single m)) ∧
    (es.map fun m => m.name).Nodup ∧ ∀ m ∈ es, m.IsEnumerator
  doc : IsPlainDoc e.doc.toList
  unused : e.parameters = none ∧ e.template = none ∧ e.immutable = none ∧ e.constexpr = none ∧
    e.static = none ∧ e.reference = none ∧ e.value = none ∧ e.sourceName = none ∧
    e.beginLine = none ∧ e.declLine = none ∧ e.endLine = none

/-- An enumerator has nothing but a name, a doc and a value. -/
theorem Entry.IsEnumerator.eq {e : Entry} (h : e.IsEnumerator) :
    e = ⟨{ name := e.name, kind := .var, doc := e.doc, value := e.value }, none⟩ := by
  obtain ⟨htype, hparameters, htemplate, himmutable, hconstexpr, hstatic, hreference, hsource,
    hbegin, hdecl, hend, hmembers⟩ := h.unused
  have heta : e = ⟨⟨e.name, e.kind, e.doc, e.type, e.parameters, e.template, e.immutable,
    e.constexpr, e.static, e.reference, e.value, e.sourceName, e.beginLine, e.declLine,
    e.endLine⟩, e.members⟩ := e.eta
  rw [htype, hparameters, htemplate, himmutable, hconstexpr, hstatic, hreference, hsource, hbegin,
    hdecl, hend, hmembers, h.kind] at heta
  exact heta

/-- A plain enum has nothing but a name, a doc, a type and its enumerators. -/
theorem Entry.IsPlainEnum.eq {e : Entry} (h : e.IsPlainEnum) {members : Entries}
    (hmembers : e.members = some members) :
    e = ⟨{ name := e.name, kind := .enum, doc := e.doc, type := e.type }, some members⟩ := by
  obtain ⟨hparameters, htemplate, himmutable, hconstexpr, hstatic, hreference, hvalue, hsource,
    hbegin, hdecl, hend⟩ := h.unused
  have heta : e = ⟨⟨e.name, e.kind, e.doc, e.type, e.parameters, e.template, e.immutable,
    e.constexpr, e.static, e.reference, e.value, e.sourceName, e.beginLine, e.declLine,
    e.endLine⟩, e.members⟩ := e.eta
  rw [hparameters, htemplate, himmutable, hconstexpr, hstatic, hreference, hvalue, hsource, hbegin,
    hdecl, hend, hmembers, h.kind] at heta
  exact heta

namespace Header

/-- Reading the tokens of printed enumerators gives the enumerators in order. -/
theorem Builder.run_enumerators (members : String → RecordHead → Logged ParseError Entries)
    (indent : Line) {b : Builder} (hfree : b.IsFree) {es : List Entry}
    (hes : ∀ e ∈ es, e.IsEnumerator)
    (hnodup : (Keyed.keys b.entries ++ es.map fun e => e.name).Nodup) (line : Int) :
    ∃ b', b.run members (Token.enumeratorTokens indent line es) = ⟨[], .ok b'⟩ ∧
      b'.template = none ∧ b'.entries = b.entries ++ es.map fun e => (e.name, .single e) := by
  induction es generalizing b line with
  | nil =>
    refine ⟨{ b with entriesEnd := some line }, Builder.run_of_isEnd rfl, hfree.template, ?_⟩
    exact (List.append_nil _).symm
  | cons e es ih =>
    obtain ⟨he, hes⟩ := List.forall_mem_cons.1 hes
    have hkey : e.key = e.name := if_neg (by simp [he.kind])
    have hname : e.name ≠ "" := fun hname => isIdentifier_ne_nil he.name (by rw [hname]; rfl)
    have hnew : e.key ∉ Keyed.keys b.entries := fun hmem =>
      (List.nodup_append.1 hnodup).2.2 _ hmem _ List.mem_cons_self hkey
    -- the names differ, so each enumerator stands alone under its key
    have hnodup' : (Keyed.keys (b.append line e).entries ++ es.map fun e => e.name).Nodup := by
      rw [Builder.entries_append, Keyed.keys_append, hkey, List.append_assoc]
      exact hnodup
    obtain ⟨b', hrun, htemplate, hentries⟩ := ih (hfree.append line e) hes hnodup'
      (line + (docLines indent e.doc).length + 1)
    refine ⟨b', ?_, htemplate, ?_⟩
    · rw [Token.enumeratorTokens, Builder.run_documented hfree rfl rfl rfl rfl rfl he.eq hname hnew,
        hrun]
      rfl
    · rw [hentries, Builder.entries_append, hkey, List.append_assoc]
      rfl

/-- The members of an enum are read from its printed body. -/
theorem membersOf_enumerators {options : ParseOptions} (hlines : options.storeLineNumbers = false)
    {indent : Line} (hindent : ∀ c ∈ indent, isBlank c = true) {es : List Entry}
    (hes : ∀ e ∈ es, e.IsEnumerator) (hnodup : (es.map fun e => e.name).Nodup) (fuel : Nat)
    (name enum base : String) (first : Int) :
    membersOf options (fuel + 1) name
        ⟨.enum, enum, base, es.flatMap fun e => e.enumeratorLines indent, first⟩ =
      ⟨[], .ok (es.map fun e => (e.name, .single e))⟩ := by
  have hfree : Builder.IsFree { name := name ++ ":" ++ enum, options, declared := true } :=
    ⟨rfl, rfl, hlines⟩
  obtain ⟨b', hrun, htemplate, hentries⟩ :=
    Builder.run_enumerators (membersOf options fuel) indent hfree hes hnodup first
  have htokens : Token.stream { enumerators := true } first
      (es.flatMap fun e => e.enumeratorLines indent) =
        ⟨[], .ok (Token.enumeratorTokens indent first es)⟩ :=
    Token.streamFrom_enumerators rfl hindent hes first (Nat.lt_succ_self _)
  simp only [membersOf, decide_true, htokens, Logged.mapError, Except.mapError, Logged.ok_bind,
    Builder.runAll, hrun, Builder.checkTemplate, htemplate, Logged.pure_def, hentries]
  rfl

/-- The lines of an enum that can be told from them. -/
theorem lines_eq_of_isPlainEnum {e : Entry} (h : e.IsPlainEnum) {es : List Entry}
    (hmembers : e.members = some (es.map fun m => (m.name, .single m))) :
    e.lines [] = docLines [] e.doc ++
      Record.enumLine e.name.toList e.typeText :: ['\x7b'] ::
        ((es.flatMap fun m => m.enumeratorLines [' ', ' ']) ++ ["\x7d;".toList]) := by
  obtain ⟨s, members⟩ := e
  obtain rfl : members = some (es.map fun m => (m.name, .single m)) := hmembers
  have hkind : s.kind = .enum := h.kind
  have hparameters : s.parameters = none := h.unused.1
  have htemplate : s.template = none := h.unused.2.1
  have htoList : Entries.toList (es.map fun m => (m.name, .single m)) = es := by
    simp [Entries.toList, List.flatMap_map]
  simp [Entry.lines, Signature.frontLines, Signature.declarationLines, Signature.recordLines,
    Signature.fragmentLines, Signature.recordLine, Entries.enumeratorLines, hkind, hparameters,
    htemplate, htoList, Record.enumLine, Record.baseText, EntryKind.label]

/-- The type of a plain enum is kept as it is written. -/
theorem typeField_of_isPlainEnum {e : Entry} (h : e.IsPlainEnum) :
    typeField (e.type.getD "") = e.type := by
  cases htype : e.type with
  | none => rfl
  | some t =>
    have ht := h.type t htype
    have hnormal : Spelling.normalize t.toList = t.toList := by
      have hwords : ∀ w ∈ [t.toList], isIdentifier w = true := by simpa using ht
      have hmarks : ∀ c ∈ ([] : List Char), Spelling.isMark c = true := by simp
      simpa [Spelling.text] using Spelling.normalize_text (List.cons_ne_nil _ _) hwords hmarks
    have hne : t ≠ "" := fun hempty => isIdentifier_ne_nil ht (by rw [hempty]; rfl)
    rw [Option.getD_some, typeField, if_neg hne, hnormal, String.ofList_toList]

/-- The token of a printed enum whose opening line has the given number. -/
def enumToken (e : Entry) (es : List Entry) (first : Int) : Token :=
  let body := es.flatMap fun m => m.enumeratorLines [' ', ' ']
  ⟨.record ⟨.enum, e.name, e.type.getD "", body, first + 2⟩, first, first + (body.length + 3), 0⟩

/-- A printed enum is one token behind that of its doc. -/
theorem stream_enum {e : Entry} (h : e.IsPlainEnum) {es : List Entry}
    (hmembers : e.members = some (es.map fun m => (m.name, .single m)))
    (hes : ∀ m ∈ es, m.IsEnumerator) {token : Token}
    (htoken : token = enumToken e es (1 + (docLines [] e.doc).length)) :
    Token.stream {} 1 (e.lines []) =
      ⟨(if token.isLarge then [Token.largeLine token] else []) ++ [], .ok (
        Token.docTokens [] 1 e.doc ++ [token, ⟨.eof, token.endLine, token.endLine, 0⟩])⟩ := by
  have hbase : e.typeText = [] ∨ isIdentifier e.typeText = true := by
    rw [Signature.typeText]
    cases htype : e.type with
    | none => exact .inl rfl
    | some t => exact .inr (h.type t htype)
  have hclass : e.name.toList ≠ "class".toList := fun hname =>
    h.notKeyword.1 (String.toList_inj.1 hname)
  have hstruct : e.name.toList ≠ "struct".toList := fun hname =>
    h.notKeyword.2 (String.toList_inj.1 hname)
  have hindent : ∀ c ∈ [' ', ' '], isBlank c = true := List.all_eq_true.1 rfl
  -- behind its doc comment the enum is one statement
  have hread := Token.readStatement_enumLine h.name hclass hstruct hbase
    (braceless_enumerators hindent hes) (1 + (docLines [] e.doc).length) [] []
  rw [String.ofList_toList, Signature.typeText, String.ofList_toList] at hread
  have hvisible : allBlank (Record.enumLine e.name.toList (e.type.getD "").toList) = false := rfl
  have hstep := Token.step_of_read token token.endLine hvisible hread rfl
    (by simp [htoken, enumToken]; omega) (by rw [htoken]; rfl)
  rw [lines_eq_of_isPlainEnum h hmembers]
  refine Token.streamFrom_documented (List.forall_mem_nil _) h.doc
    (Token.skipBlankLines_of_visible hvisible _) (fun fuel hfuel => ?_) (Nat.lt_succ_self _)
  obtain ⟨fuel, rfl⟩ : ∃ fuel', fuel = fuel' + 2 := ⟨fuel - 2, by simp at hfuel; omega⟩
  exact Token.streamFrom_cons hstep (by simp [htoken, enumToken]) (Token.streamFrom_nil _ _ _)

/-- **Reading a printed enum.**  An enum that can be told from its printed lines is read back from
them as it is, with its enumerators in order: the header holds that entry alone.  Only a log line
tells when it is long. -/
theorem ofLines_lines_enum {e : Entry} (h : e.IsPlainEnum) (name : String) :
    (ofLines name {} (e.lines [])).outcome = .ok { name, entries := [(e.name, .single e)] } := by
  obtain ⟨es, hmembers, hnodup, hes⟩ := h.members
  have hstream := stream_enum h hmembers hes rfl
  have hbody (fuel : Nat) : bodyOf (membersOf {} (fuel + 1)) name
      (enumToken e es (1 + (docLines [] e.doc).length)) =
        ⟨[], .ok (some (es.map fun m => (m.name, .single m)))⟩ := by
    have hoptions : ({} : ParseOptions).storeLineNumbers = false := rfl
    have hindent : ∀ c ∈ [' ', ' '], isBlank c = true := List.all_eq_true.1 rfl
    have hread := membersOf_enumerators hoptions hindent hes hnodup fuel name e.name
      (e.type.getD "") (1 + (docLines [] e.doc).length + 2)
    exact congrArg (some <$> ·) hread
  have hsignature : signature? (enumToken e es (1 + (docLines [] e.doc).length)).statement =
      some { name := e.name, kind := .enum, type := e.type } := by
    rw [← typeField_of_isPlainEnum h]
    rfl
  have hname : e.name ≠ "" := fun hname => isIdentifier_ne_nil h.name (by rw [hname]; rfl)
  have hkey : e.key = e.name := if_neg (by simp [h.kind])
  have hheader := ofTokens_documented rfl hsignature rfl rfl hbody (h.eq hmembers) hname
  simp only [ofLines, hstream, Logged.mapError, Except.mapError, Logged.ok_bind, hheader, hkey]

/-- An enumerator with braces and a quote in its doc. -/
def startEnumerator : Entry where
  name := "ALIGN_START"
  kind := .var
  doc := "It's at the \x7b\n\n  // front"
  value := some "-1 << (2 + 3)"

/-- An enumerator without a doc. -/
def endEnumerator : Entry where
  name := "ALIGN_END"
  kind := .var

/-- An enum whose doc closes a brace that it does not open. -/
def alignEnum : Entry where
  name := "Align"
  kind := .enum
  doc := "Where a \"label\" goes: \x7d;"
  type := some "Uint8"
  members := some [("ALIGN_START", .single startEnumerator), ("ALIGN_END", .single endEnumerator)]

example : (alignEnum.lines []).map String.ofList = [
    "/**", " * Where a \"label\" goes: \x7d;", " */", "enum Align : Uint8", "\x7b",
    "  /**", "   * It's at the \x7b", "   *", "   *   // front", "   */",
    "  ALIGN_START = -1 << (2 + 3),", "  ALIGN_END,", "\x7d;"] := by
  decide +kernel

theorem isEnumerator_startEnumerator : startEnumerator.IsEnumerator where
  kind := rfl
  name := by decide
  value v hv := by
    obtain rfl : "-1 << (2 + 3)" = v := Option.some.inj hv
    exact ⟨by decide, by decide, List.all_iff_forall_prop.1 (by decide)⟩
  doc := by decide
  unused := ⟨rfl, rfl, rfl, rfl, rfl, rfl, rfl, rfl, rfl, rfl, rfl, rfl⟩

theorem isEnumerator_endEnumerator : endEnumerator.IsEnumerator where
  kind := rfl
  name := by decide
  value v hv := by cases hv
  doc := by decide
  unused := ⟨rfl, rfl, rfl, rfl, rfl, rfl, rfl, rfl, rfl, rfl, rfl, rfl⟩

theorem isPlainEnum_alignEnum : alignEnum.IsPlainEnum where
  kind := rfl
  name := by decide
  notKeyword := by decide
  type := by decide
  members := by
    refine ⟨[startEnumerator, endEnumerator], rfl, by decide, ?_⟩
    simp [isEnumerator_startEnumerator, isEnumerator_endEnumerator]
  doc := by decide
  unused := ⟨rfl, rfl, rfl, rfl, rfl, rfl, rfl, rfl, rfl, rfl, rfl⟩

/-- An enum with a base, docs and values is printed and read again. -/
theorem ofLines_lines_alignEnum :
    alignEnum.IsPlainEnum ∧ (ofLines "align.h" {} (alignEnum.lines [])).outcome =
      .ok { name := "align.h", entries := [("Align", .single alignEnum)] } :=
  ⟨isPlainEnum_alignEnum, ofLines_lines_enum isPlainEnum_alignEnum "align.h"⟩

end Header

end HeaderApi
