import HeaderApi.Proofs.FunctionHeads
import HeaderApi.Proofs.TightTexts

/-!
# Values of enumerators

An enumerator with a value, possibly a comma and a doc comment, is read as what its line says
exactly if the value holds no comma and no slash.  Otherwise the line is not recognized.
-/

namespace HeaderApi

open Text

namespace Enumerator

/-! ## Constants -/

/-- What a bracket adds to the depth. -/
def level (c : Char) : Int :=
  if c ∈ "([\x7b".toList then 1 else if c ∈ ")]\x7d".toList then -1 else 0

/-- The bracket depth behind a text. -/
def depth : List Char → Int
  | [] => 0
  | c :: cs => level c + depth cs

/-- The text of a constant expression: without blanks around it, with balanced brackets, without
comments and literals, and with commas in brackets only. -/
structure IsConstant (value : List Char) : Prop where
  ne_nil : value ≠ []
  trimmed : trim value = value
  nonneg : ∀ front rest, value = front ++ rest → 0 ≤ depth front
  balanced : depth value = 0
  enclosed : ∀ front rest, value = front ++ ',' :: rest → 0 < depth front
  literal : ∀ c ∈ value, Source.isQuote c = false
  comment : ¬"//".toList <:+: value ∧ ¬"/*".toList <:+: value

theorem depth_append (front rest : List Char) :
    depth (front ++ rest) = depth front + depth rest := by
  induction front with
  | nil => simp [depth]
  | cons c front ih => rw [List.cons_append, depth, depth, ih, Int.add_assoc]

/-- Where the depth goes down stands a closing bracket. -/
theorem exists_closing_of_depth {cs : List Char} (h : depth cs < 0) :
    ∃ c ∈ cs, c ∈ ")]\x7d".toList := by
  induction cs with
  | nil => cases h
  | cons c cs ih =>
    by_cases hc : c ∈ ")]\x7d".toList
    · exact ⟨c, List.mem_cons_self, hc⟩
    · have hlevel : 0 ≤ level c := by
        rw [level, if_neg hc]
        split <;> decide
      rw [depth] at h
      obtain ⟨d, hd, hclosing⟩ := ih (by omega)
      exact ⟨d, List.mem_cons_of_mem c hd, hclosing⟩

/-! ## Lines -/

/-- The doc comment behind an enumerator. -/
def docPart : Option (List Char) → List Char
  | none => []
  | some text => " /**<".toList ++ (text ++ "*/".toList)

/-- What stands behind the value of an enumerator. -/
def behind (comma : Bool) (doc : Option (List Char)) : List Char :=
  (if comma then [','] else []) ++ docPart doc

/-- The line of an enumerator with a value. -/
def lineOf (name value : List Char) (comma : Bool) (doc : Option (List Char)) : Line :=
  name ++ ' ' :: '=' :: ' ' :: (value ++ behind comma doc)

/-- What such a line says. -/
def headOf (name value : List Char) (doc : Option (List Char)) : VariableHead where
  name := String.ofList name
  type := ""
  initializer := some (String.ofList value)
  doc := doc.map fun text => String.ofList (trim text)
  static := false
  constexpr := false

variable {name value text tail : List Char} {comma : Bool} {doc : Option (List Char)}

/-- A doc comment behind an enumerator is read as its text. -/
theorem docAtEnd?_block (h : '\n' ∉ text) :
    docAtEnd? ("/**<".toList ++ (text ++ "*/".toList)) = some text := by
  have hfront : after? "/**<".toList ("/**<".toList ++ (text ++ "*/".toList)) =
      some (text ++ "*/".toList) := after?_eq_some_iff.2 rfl
  have hend : after? "/*".toList (text ++ "*/".toList).reverse = some text.reverse := by
    rw [after?_eq_some_iff, List.reverse_append]
    rfl
  have hline : text.reverse.contains '\n' = false := by simpa using h
  rw [docAtEnd?, hfront]
  dsimp only
  rw [hend, Option.bind_some, hline, List.reverse_reverse]
  rfl

/-- What begins no comment is no doc comment. -/
theorem docAtEnd?_eq_none (hline : startsWith "//".toList text = false)
    (hblock : startsWith "/*".toList text = false) : docAtEnd? text = none := by
  have hnone {mark : List Char} (opening : List Char) (h : startsWith mark text = false) :
      after? (mark ++ opening) text = none := by
    cases hafter : after? (mark ++ opening) text with
    | none => rfl
    | some rest =>
      rw [after?_eq_some_iff, List.append_assoc] at hafter
      rw [startsWith_iff.2 ⟨_, hafter⟩] at h
      cases h
  have hdoc : after? "/**<".toList text = none := hnone ['*', '<'] hblock
  have hdocLine : after? "///<".toList text = none := hnone ['/', '<'] hline
  rw [docAtEnd?, hdoc, hdocLine]
  rfl

/-- The doc part behind an enumerator is read as that doc. -/
theorem ending?_docPart (h : ∀ text ∈ doc, '\n' ∉ text) : ending? (docPart doc) = some doc := by
  cases doc with
  | none => rfl
  | some text =>
    have hdoc : ending? (docPart (some text)) =
      (docAtEnd? ("/**<".toList ++ (text ++ "*/".toList))).map some := rfl
    rw [hdoc, docAtEnd?_block (h text rfl)]
    rfl

/-- What stands behind a value is read as its doc, whether or not it begins with a comma. -/
theorem ending?_behind (h : ∀ text ∈ doc, '\n' ∉ text) : ending? (behind comma doc) = some doc := by
  cases comma with
  | false => exact ending?_docPart h
  | true =>
    have hcomma : ending? (behind true doc) = ending? (docPart doc) := by
      cases doc <;> rfl
    rw [hcomma, ending?_docPart h]

/-! ## Reading -/

/-- The characters that a value is read up to. -/
def endsValue (c : Char) : Bool := c = ',' || c = '/'

/-- A value runs up to the first comma or slash. -/
theorem splitValue_unmarked {front : List Char} (hfront : ∀ c ∈ front, endsValue c = false)
    (htail : ∀ c ∈ tail.head?, endsValue c = true) :
    splitValue (front ++ tail) = (trim front, tail) := by
  have hvalue : ∀ c ∈ front, (decide (c ≠ ',') && decide (c ≠ '/')) = true := by
    intro c hc
    simpa [endsValue] using hfront c hc
  have hends : ∀ c ∈ tail.head?, (decide (c ≠ ',') && decide (c ≠ '/')) = false := by
    intro c hc
    simpa [endsValue, imp_iff_not_or] using htail c hc
  rw [splitValue, takeWhile_append_of_head hvalue hends, dropWhile_append_of_head hvalue hends]

/-- A comment begins behind a piece of text, or the piece begins one, or it is one slash. -/
theorem startsWith_comment {piece : List Char} {mark : Char} (hne : piece ≠ [])
    (hslash : piece ≠ ['/']) (hpiece : ¬['/', mark] <:+: piece) :
    startsWith ['/', mark] (piece ++ tail) = false := by
  refine Bool.eq_false_iff.2 fun hstart => ?_
  obtain ⟨rest, hrest⟩ := startsWith_iff.1 hstart
  cases piece with
  | nil => exact hne rfl
  | cons c piece =>
    cases piece with
    | nil =>
      obtain ⟨hc, -⟩ := List.cons.inj hrest
      exact hslash (by rw [hc])
    | cons d piece =>
      obtain ⟨hc, hrest⟩ := List.cons.inj hrest
      obtain ⟨hd, -⟩ := List.cons.inj hrest
      rw [hc, hd] at hpiece
      exact hpiece (List.prefix_append ['/', mark] piece).isInfix

/-- What begins no comment by itself begins no doc comment. -/
theorem docAtEnd?_append {piece : List Char} (hne : piece ≠ []) (hslash : piece ≠ ['/'])
    (hline : ¬"//".toList <:+: piece) (hblock : ¬"/*".toList <:+: piece) :
    docAtEnd? (piece ++ tail) = none :=
  docAtEnd?_eq_none (startsWith_comment hne hslash hline) (startsWith_comment hne hslash hblock)

namespace IsConstant

variable {front rest : List Char}

/-- A slash in a value ends it, and what follows is no end of a line. -/
theorem ending?_slash (h : IsConstant value) (hvalue : value = front ++ '/' :: rest) :
    ending? ('/' :: (rest ++ behind comma doc)) = none := by
  have hending : ending? ('/' :: (rest ++ behind comma doc)) =
    (docAtEnd? ('/' :: (rest ++ behind comma doc))).map some := rfl
  rw [hending]
  by_cases hrest : rest = []
  · subst hrest
    cases comma <;> cases doc <;> rfl
  · have hpiece : '/' :: rest <:+: value := (List.suffix_iff_eq_append.2 (by simp [hvalue])).isInfix
    have hnone : docAtEnd? ('/' :: rest ++ behind comma doc) = none :=
      docAtEnd?_append (List.cons_ne_nil '/' rest) (by simp [hrest])
        (fun hcomment => h.comment.1 (hcomment.trans hpiece))
        fun hcomment => h.comment.2 (hcomment.trans hpiece)
    rw [← List.cons_append, hnone]
    rfl

/-- A comma in a value stands in brackets: one of them closes behind it. -/
theorem exists_closing (h : IsConstant value) (hvalue : value = front ++ ',' :: rest) :
    ∃ c ∈ rest, c ∈ ")]\x7d".toList := by
  have hinside := h.enclosed front rest hvalue
  have hbalanced := h.balanced
  have hcomma : depth (',' :: rest) = depth rest := by
    rw [depth, show level ',' = 0 by decide, Int.zero_add]
  rw [hvalue, depth_append, hcomma] at hbalanced
  exact exists_closing_of_depth (by omega)

/-- A comma in a value ends it, and what follows is no end of a line. -/
theorem ending?_comma (h : IsConstant value) (hvalue : value = front ++ ',' :: rest) :
    ending? (',' :: (rest ++ behind comma doc)) = none := by
  -- The comma stands inside of brackets, and the bracket behind it cannot be part of an ending.
  obtain ⟨c, hc, hclosing⟩ := h.exists_closing hvalue
  have hbrackets : ∀ d ∈ ")]\x7d".toList, isBlank d = false ∧ d ≠ '/' :=
    List.all_iff_forall_prop.1 (by decide)
  have hbracket := hbrackets c hclosing
  have hmem : c ∈ trimStart rest := mem_trimStart_of_mem hc hbracket.1
  have hne : trimStart rest ≠ [] := List.ne_nil_of_mem hmem
  have hslash : trimStart rest ≠ ['/'] := by
    intro heq
    rw [heq, List.mem_singleton] at hmem
    exact hbracket.2 hmem
  have htrim : trimStart (rest ++ behind comma doc) = trimStart rest ++ behind comma doc := by
    rw [trimStart, trimStart, List.dropWhile_append]
    exact if_neg (mt List.isEmpty_iff.1 hne)
  have hpiece : trimStart rest <:+: value := by
    refine (List.dropWhile_suffix isBlank).isInfix.trans ?_
    rw [hvalue]
    exact ⟨front ++ [','], [], by simp⟩
  have hnone : docAtEnd? (trimStart rest ++ behind comma doc) = none :=
    docAtEnd?_append hne hslash (fun hcomment => h.comment.1 (hcomment.trans hpiece))
      fun hcomment => h.comment.2 (hcomment.trans hpiece)
  have hending : ending? (',' :: (rest ++ behind comma doc)) =
    if trimStart (rest ++ behind comma doc) = [] then some none
    else (docAtEnd? (trimStart (rest ++ behind comma doc))).map some := rfl
  rw [hending, htrim, if_neg (List.append_ne_nil_of_left_ne_nil hne _), hnone]
  rfl

/-- A value without commas and slashes is read as a whole, up to the end of its line. -/
theorem splitValue_eq (h : IsConstant value) (hvalue : ∀ c ∈ value, endsValue c = false)
    (hdoc : ∀ text ∈ doc, '\n' ∉ text) :
    ∃ rest, splitValue (' ' :: (value ++ behind comma doc)) = (value, rest) ∧
      ending? rest = some doc := by
  have hspace : endsValue ' ' = false := by decide
  have hfront : ∀ c ∈ ' ' :: value, endsValue c = false := List.forall_mem_cons.2 ⟨hspace, hvalue⟩
  have htrim : trim (' ' :: value) = value := by rw [trim_cons_of_blank (by decide), h.trimmed]
  have hline (hbehind : ∀ c ∈ (behind comma doc).head?, endsValue c = true) :
      ∃ rest, splitValue (' ' :: (value ++ behind comma doc)) = (value, rest) ∧
        ending? rest = some doc := by
    refine ⟨behind comma doc, ?_, ending?_behind hdoc⟩
    rw [← List.cons_append, splitValue_unmarked hfront hbehind, htrim]
  cases comma with
  | true => exact hline fun c hc => Option.some.inj hc ▸ rfl
  | false =>
    cases doc with
    | none => exact hline fun c hc => nomatch hc
    | some text =>
      -- The space in front of the comment goes with the value.
      have hblank : ∀ c ∈ [' '], isBlank c = true := List.forall_mem_singleton.2 (by decide)
      have hsplit : splitValue (' ' :: value ++ [' '] ++ ("/**<".toList ++ (text ++ "*/".toList))) =
          (trim (' ' :: value ++ [' ']), "/**<".toList ++ (text ++ "*/".toList)) :=
        splitValue_unmarked (List.forall_mem_append.2 ⟨hfront, List.forall_mem_singleton.2 hspace⟩)
          fun c hc => Option.some.inj hc ▸ rfl
      rw [trim_append_of_blank hblank, htrim, List.append_assoc] at hsplit
      exact ⟨_, hsplit, ending?_docPart hdoc⟩

/-- A value is cut at its first comma or slash, and what follows is no end of a line. -/
theorem ending?_splitValue (h : IsConstant value) (hvalue : ∃ c ∈ value, endsValue c = true) :
    ending? (splitValue (' ' :: (value ++ behind comma doc))).2 = none := by
  obtain ⟨c, hfind⟩ := Option.isSome_iff_exists.1 (List.find?_isSome.2 hvalue)
  obtain ⟨hc, front, rest, rfl, hnone⟩ := List.find?_eq_some_iff_append.1 hfind
  have hfront : ∀ d ∈ front, endsValue d = false := fun d hd => by simpa using hnone d hd
  have hsplit : splitValue (' ' :: front ++ c :: (rest ++ behind comma doc)) =
      (trim (' ' :: front), c :: (rest ++ behind comma doc)) :=
    splitValue_unmarked (List.forall_mem_cons.2 ⟨by decide, hfront⟩)
      fun d hd => Option.some.inj hd ▸ hc
  rw [List.append_assoc, List.cons_append, ← List.cons_append, hsplit]
  have hends : c = ',' ∨ c = '/' := by simpa [endsValue] using hc
  rcases hends with rfl | rfl
  · exact h.ending?_comma rfl
  · exact h.ending?_slash rfl

/-- An enumerator is read exactly if its value holds no comma and no slash. -/
theorem read?_lineOf (h : IsConstant value) (hne : name ≠ []) (hname : ∀ c ∈ name, isWord c = true)
    (hdoc : ∀ text ∈ doc, '\n' ∉ text) :
    read? (lineOf name value comma doc) =
      if value.any endsValue then none else some (headOf name value doc) := by
  have hword : (lineOf name value comma doc).takeWhile isWord = name :=
    takeWhile_append_cons hname (by decide)
  have hbehind : trimStart ((lineOf name value comma doc).dropWhile isWord) =
      '=' :: ' ' :: (value ++ behind comma doc) := by
    rw [lineOf, dropWhile_append_cons hname (by decide)]
    rfl
  -- The value is cut at the first comma or slash: without one it ends where the line ends.
  split
  case isTrue hany =>
    have hending : ending? (splitValue (' ' :: (value ++ behind comma doc))).2 = none :=
      h.ending?_splitValue (List.any_eq_true.1 hany)
    simp only [read?, hbehind, hending]
    rfl
  case isFalse hany =>
    have hfree : ∀ c ∈ value, endsValue c = false := by simpa using hany
    obtain ⟨rest, hsplit, hending⟩ :
        ∃ rest, splitValue (' ' :: (value ++ behind comma doc)) = (value, rest) ∧
          ending? rest = some doc := h.splitValue_eq hfree hdoc
    simp only [read?, hbehind, hsplit, hending, hword, Option.bind_eq_bind, Option.bind_some,
      if_neg hne, if_neg h.ne_nil]
    rfl

end IsConstant

/-- The line of an enumerator ends with its value or with a mark. -/
theorem IsConstant.getLast?_lineOf (h : IsConstant value) :
    ∀ c ∈ (lineOf name value comma doc).getLast?, isBlank c = false := by
  have hline : lineOf name value comma doc =
      name ++ " = ".toList ++ value ++ behind comma doc := by
    simp [lineOf]
  rw [hline]
  cases doc with
  | some text =>
    have hbehind : ∃ front, behind comma (some text) = front ++ ['/'] :=
      ⟨(if comma then [','] else []) ++ (" /**<".toList ++ (text ++ ['*'])),
        by simp [behind, docPart]⟩
    obtain ⟨front, hbehind⟩ := hbehind
    rw [hbehind, ← List.append_assoc, List.getLast?_concat]
    exact fun c hc => Option.some.inj hc ▸ rfl
  | none =>
    cases comma with
    | true =>
      have hbehind : behind true none = [','] := rfl
      rw [hbehind, List.getLast?_concat]
      exact fun c hc => Option.some.inj hc ▸ rfl
    | false =>
      have hbehind : behind false none = [] := rfl
      rw [hbehind, List.append_nil, List.getLast?_append_of_ne_nil _ h.ne_nil]
      intro c hc
      rw [← h.trimmed] at hc
      exact getLast?_trim value c hc

/-- Whether a text is a constant shows at its openings. -/
theorem isConstant_of_inits (hne : value ≠ []) (htrim : trim value = value)
    (hinits : ∀ front ∈ value.inits, 0 ≤ depth front) (hdepth : depth value = 0)
    (hcommas : ∀ front ∈ value.inits,
      (value.drop front.length).head? = some ',' → 0 < depth front)
    (hliteral : value.any Source.isQuote = false)
    (hcomment : ¬"//".toList <:+: value ∧ ¬"/*".toList <:+: value) : IsConstant value where
  ne_nil := hne
  trimmed := htrim
  nonneg front rest hvalue := hinits front ((List.mem_inits front value).2 ⟨rest, hvalue.symm⟩)
  balanced := hdepth
  enclosed front rest hvalue :=
    hcommas front ((List.mem_inits front value).2 ⟨',' :: rest, hvalue.symm⟩) (by simp [hvalue])
  literal c hc := Bool.eq_false_iff.2 (List.any_eq_false.1 hliteral c hc)
  comment := hcomment

end Enumerator

namespace Token

open Enumerator Spelling

/-- In the body of an enum a line that begins with a word character is read as an enumerator. -/
theorem readStatement_enumeratorLine {mode : Mode} (hmode : mode.enumerators = true)
    {raw line : Line} {c : Char} (hc : isWord c = true) (hline : line.head? = some c)
    (htrim : trim raw = line)
    (number : Int) (scopes : List Scope) (rest : List Line) :
    readStatement mode raw number scopes rest = .ok {
      statement := match Enumerator.read? line with
        | some head => .var head
        | none => .unknown (String.ofList line)
      scopes, rest } := by
  rw [readStatement_word mode hc hline htrim, readCode, if_pos hmode]
  cases Enumerator.read? line <;> rfl

variable {mode : Mode} {indent name value : List Char} {comma : Bool} {doc : Option (List Char)}

/-- In the body of an enum the line of an enumerator with a value is one token, which says what
the line does unless the value holds a comma or a slash. -/
theorem step_lineOf (hmode : mode.enumerators = true) (hindent : ∀ c ∈ indent, isBlank c = true)
    (hne : name ≠ []) (hname : ∀ c ∈ name, isWord c = true) (hvalue : IsConstant value)
    (hdoc : ∀ text ∈ doc, '\n' ∉ text) (c : Cursor) (rest : List Line)
    (hrest : skipBlankLines c.rest = (indent ++ lineOf name value comma doc) :: rest) :
    step mode c = .ok (advance c indent.length {
      statement :=
        if value.any endsValue then .unknown (String.ofList (lineOf name value comma doc))
        else .var (headOf name value doc)
      scopes := c.scopes
      rest }) := by
  obtain ⟨d, name, rfl⟩ := List.exists_cons_of_ne_nil hne
  have hd : isWord d = true := hname d List.mem_cons_self
  have hvisible : isBlank d = false := isBlank_of_isWord hd
  have htrim : trim (indent ++ lineOf (d :: name) value comma doc) =
      lineOf (d :: name) value comma doc := by
    rw [trim, trimStart_append_of_blank hindent]
    exact trim_eq_self (fun e he => Option.some.inj he ▸ hvisible) hvalue.getLast?_lineOf
  have hindentation : indentation (indent ++ lineOf (d :: name) value comma doc) = indent.length :=
    indentation_append hindent hvisible _
  simp only [step, hrest, readStatement_enumeratorLine hmode hd (by rfl) htrim, hindentation,
    hvalue.read?_lineOf hne hname hdoc]
  cases value.any endsValue <;> rfl

/-- A shift, a bit mask and a call are read, with the comma and the doc comment behind them. -/
theorem step_lineOf_flag :
    step { enumerators := true } (.start 1 ["FLAG = (1 << 3) | f(x), /**< doc */".toList]) =
      .ok ⟨⟨.var ⟨"FLAG", "", some "(1 << 3) | f(x)", some "doc", false, false⟩, 1, 2, 0⟩,
        ⟨2, [], []⟩, []⟩ :=
  @step_lineOf { enumerators := true } [] "FLAG".toList "(1 << 3) | f(x)".toList true
    (some " doc ".toList) rfl (List.forall_mem_nil _) (by decide) (List.all_eq_true.1 (by decide))
    (isConstant_of_inits (by decide) (by decide) (by decide) (by decide) (by decide) (by decide)
      (by decide))
    (by decide) _ [] (by decide)

/-- A division is not read, although it is a constant. -/
theorem not_forall_step_var :
    ¬∀ (name value : List Char) (comma : Bool) (doc : Option (List Char)),
      name ≠ [] → (∀ c ∈ name, isWord c = true) → IsConstant value →
      (∀ text ∈ doc, '\n' ∉ text) →
      ∃ next, step { enumerators := true } (.start 1 [lineOf name value comma doc]) = .ok next ∧
        next.token.statement = .var (headOf name value doc) := by
  intro h
  obtain ⟨next, hstep, hvar⟩ := h "HALF".toList "FULL / 2".toList true none (by decide)
    (List.all_eq_true.1 (by decide))
    (isConstant_of_inits (by decide) (by decide) (by decide) (by decide) (by decide) (by decide)
      (by decide)) (by decide)
  have hline : step { enumerators := true }
      (.start 1 [lineOf "HALF".toList "FULL / 2".toList true none]) =
      .ok ⟨⟨.unknown "HALF = FULL / 2,", 1, 2, 0⟩, ⟨2, [], []⟩, []⟩ := rfl
  rw [hline] at hstep
  rw [← Except.ok.inj hstep] at hvar
  cases hvar

end Token

end HeaderApi
