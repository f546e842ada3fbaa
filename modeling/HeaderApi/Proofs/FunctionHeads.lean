import HeaderApi.Proofs.PlainTypes
import HeaderApi.Proofs.StatementCases

/-!
# Reading the declaration of a function

A line that begins with a word which opens no statement of another kind is read as a member.  Of a
function the words of the type, the name, the parameters between balanced parentheses and the
qualifiers behind them are found.
-/

namespace HeaderApi

open Text

/-! ## Text between parentheses -/

namespace Source

/-- The rest of a literal up to the quote that closes it.  A backslash takes the next character
with it. -/
inductive Closes (quote : Char) : List Char → Prop
  | quote : Closes quote [quote]
  | escaped (c : Char) {rest : List Char} (h : Closes quote rest) : Closes quote ('\\' :: c :: rest)
  | char {c : Char} {rest : List Char} (hslash : c ≠ '\\') (hquote : c ≠ quote)
      (h : Closes quote rest) : Closes quote (c :: rest)

/-- A text whose literals are closed and whose parentheses balance outside of literals. -/
inductive Balanced : List Char → Prop
  | nil : Balanced []
  | char {c : Char} {rest : List Char} (hquote : isQuote c = false) (hopening : c ≠ '(')
      (hclosing : c ≠ ')') (h : Balanced rest) : Balanced (c :: rest)
  | literal {quote : Char} {body rest : List Char} (hquote : isQuote quote = true)
      (hbody : Closes quote body) (h : Balanced rest) : Balanced (quote :: (body ++ rest))
  | group {inside rest : List Char} (hinside : Balanced inside) (h : Balanced rest) :
      Balanced ('(' :: (inside ++ ')' :: rest))

/-- Characters other than quotes and parentheses do not count. -/
theorem Balanced.append {cs rest : List Char}
    (hcs : ∀ c ∈ cs, isQuote c = false ∧ c ≠ '(' ∧ c ≠ ')') (h : Balanced rest) :
    Balanced (cs ++ rest) := by
  induction cs with
  | nil => exact h
  | cons c cs ih =>
    obtain ⟨⟨hquote, hopening, hclosing⟩, hcs⟩ := List.forall_mem_cons.1 hcs
    exact .char hquote hopening hclosing (ih hcs)

/-- A character behind those of a literal closes it. -/
theorem Closes.append {quote : Char} {cs rest : List Char} (hcs : ∀ c ∈ cs, c ≠ '\\' ∧ c ≠ quote)
    (h : Closes quote rest) : Closes quote (cs ++ rest) := by
  induction cs with
  | nil => exact h
  | cons c cs ih =>
    obtain ⟨⟨hslash, hquote⟩, hcs⟩ := List.forall_mem_cons.1 hcs
    exact .char hslash hquote (ih hcs)

/-- A search for a closing bracket passes over the rest of a literal. -/
theorem findClosingFrom_closes (opening closing : Char) {quote : Char} {body : List Char}
    (hquote : isQuote quote = true) (hbody : Closes quote body) (depth : Int) (rest : List Char) :
    findClosingFrom opening closing (.inside quote) depth (body ++ rest)
      = body.foldr Closing.cons (findClosingFrom opening closing .outside depth rest) := by
  induction hbody with
  | quote =>
    have hslash : quote ≠ '\\' := by rintro rfl; cases hquote
    simp [findClosingFrom, Quoting.next, hslash]
  | escaped c _ ih => simp [findClosingFrom, Quoting.next, ih]
  | char hslash hne _ ih => simp [findClosingFrom, Quoting.next, hslash, hne, ih]

/-- A search for a closing parenthesis passes over balanced text, however deep it stands. -/
theorem findClosingFrom_balanced {text : List Char} (h : Balanced text) {depth : Int}
    (hdepth : 1 ≤ depth) (rest : List Char) :
    findClosingFrom '(' ')' .outside depth (text ++ rest)
      = text.foldr Closing.cons (findClosingFrom '(' ')' .outside depth rest) := by
  induction h generalizing depth rest with
  | nil => rfl
  | char hquote hopening hclosing _ ih =>
    rw [List.cons_append, findClosingFrom, if_neg (by simp [hquote]), if_neg hopening,
      if_neg hclosing, ih hdepth]
    rfl
  | literal hquote hbody _ ih =>
    rw [List.cons_append, List.append_assoc, findClosingFrom, if_pos hquote,
      findClosingFrom_closes '(' ')' hquote hbody, ih hdepth, List.foldr_cons, List.foldr_append]
  | group _ _ ihinside ih =>
    -- The parenthesis that closes the group leads back to a depth above zero.
    have hdeep : ¬depth + 1 - 1 = 0 := by omega
    rw [List.cons_append, List.append_assoc, findClosingFrom, if_neg (by decide), if_pos rfl,
      ihinside (by omega), List.cons_append, findClosingFrom, if_neg (by decide),
      if_neg (by decide), if_pos rfl, if_neg hdeep, Int.add_sub_cancel, ih hdepth]
    simp only [List.foldr_cons, List.foldr_append]

/-- The parenthesis behind balanced text closes the one before it. -/
theorem findClosing_balanced {text : List Char} (h : Balanced text) (rest : List Char) :
    findClosing '(' ')' 1 (text ++ ')' :: rest) = .found text rest := by
  have hclosing : findClosingFrom '(' ')' .outside 1 (')' :: rest) = .found [] rest := by
    simp [findClosingFrom, isQuote]
  rw [findClosing, findClosingFrom_balanced h (Int.le_refl 1), hclosing, foldr_cons_found,
    List.append_nil]

end Source

/-- A balanced text in front of a closing parenthesis is the whole list. -/
theorem Block.parenthesized_balanced {text : List Char} (h : Source.Balanced text) (trailer : Line)
    (rest : List Line) :
    Block.parenthesized (text ++ ')' :: trailer) rest = .ok (⟨[text], trailer⟩, rest) := by
  have henclosed : Block.enclosed '(' ')' 1 (text ++ ')' :: trailer) rest
      = some (⟨[text], trailer⟩, rest) := by
    cases rest <;> simp only [Block.enclosed, Source.findClosing_balanced h]
  rw [Block.parenthesized, henclosed]

/-! ## Words -/

namespace Text

/-- An opening that no word begins with is not found in front of an identifier. -/
theorem startsWith_of_isIdentifier {p : Char} {ps cs tail : List Char}
    (h : isIdentifier cs = true) (hp : isPlainChar p = false) :
    startsWith (p :: ps) (cs ++ tail) = false := by
  obtain ⟨d, cs, rfl⟩ := List.exists_cons_of_ne_nil (isIdentifier_ne_nil h)
  have hd := ne_of_isPlainChar (isPlainChar_of_mem h d List.mem_cons_self) hp
  simp [startsWith, after?, Ne.symm hd]

/-- The runs of word characters of a text.  The flag tells whether the character before it is part
of a word. -/
def wordRuns : Bool → List Char → List (List Char)
  | _, [] => []
  | inWord, c :: rest =>
    if !inWord && isWord c then (c :: rest).takeWhile isWord :: wordRuns true rest
    else wordRuns (isWord c) rest

end Text

/-! ## Members -/

namespace Member

/-- The words that open statements of other kinds, and the operators. -/
def openings : List (List Char) :=
  ["using", "typedef", "namespace", "template", "struct", "class", "union", "enum", "extern",
    "operator"].map String.toList

/-- An identifier with which a member may begin: it begins with none of the words that open other
statements. -/
structure IsLead (word : List Char) : Prop where
  isIdentifier : isIdentifier word = true
  opening : startsWithAny openings word = false

/-- An identifier that may stand in the type of a member or name one. -/
structure IsFree (word : List Char) : Prop extends IsLead word where
  specifier : word ∉ specifiers

/-- A leading word begins with none of the words that open other statements. -/
theorem IsLead.startsWith_eq_false {lead opening : List Char} (h : IsLead lead)
    (hmem : opening ∈ openings) : startsWith opening lead = false :=
  Bool.eq_false_iff.2 fun hstart =>
    absurd (List.any_eq_true.2 ⟨opening, hmem, hstart⟩) (Bool.eq_false_iff.1 h.opening)

theorem IsLead.startsWith_operator {lead : List Char} (h : IsLead lead) :
    startsWith "operator".toList lead = false := h.startsWith_eq_false (by decide)

/-- A leading word, whatever follows it, does not begin with one of those words. -/
theorem IsLead.after?_eq_none {lead tail opening : List Char} {c : Char} (h : IsLead lead)
    (hmem : opening ∈ openings) (hc : c ∉ opening) : after? opening (lead ++ c :: tail) = none := by
  rw [after?_eq_none_iff, startsWith_append_cons hc]
  exact h.startsWith_eq_false hmem

/-- Behind a word of its own no other statement is opened: a blank or a parenthesis follows it. -/
theorem IsLead.after?_opening {lead tail opening : List Char} {c : Char} (h : IsLead lead)
    (hc : c = ' ' ∨ c = '(') (hmem : opening ∈ openings) :
    after? opening (lead ++ c :: tail) = none := by
  have hnone : ∀ opening ∈ openings, ' ' ∉ opening ∧ '(' ∉ opening := by decide
  obtain ⟨hspace, hparenthesis⟩ := hnone opening hmem
  rcases hc with rfl | rfl
  · exact h.after?_eq_none hmem hspace
  · exact h.after?_eq_none hmem hparenthesis

/-- A line without the words of attributes stays as it is. -/
theorem dropAttributesFrom_eq_self {inWord : Bool} {line : Line}
    (h : ∀ word ∈ wordRuns inWord line, word ∉ attributeWords) :
    dropAttributesFrom 0 inWord line = line := by
  induction line generalizing inWord with
  | nil => rfl
  | cons c line ih =>
    rw [wordRuns] at h
    rw [dropAttributesFrom]
    cases hbegins : !inWord && isWord c with
    | false =>
      rw [hbegins] at h
      rw [Bool.false_and, if_neg Bool.false_ne_true, ih h]
    | true =>
      rw [hbegins, if_pos rfl] at h
      obtain ⟨hword, hline⟩ := List.forall_mem_cons.1 h
      have hc : isWord c = true := (Bool.and_eq_true_iff.1 hbegins).2
      have hcontains : attributeWords.contains ((c :: line).takeWhile isWord) = false := by
        simpa using hword
      rw [hcontains, Bool.and_false, if_neg Bool.false_ne_true, hc, ih hline]

/-! ## Heads -/

open Spelling

theorem isTypeChar_of_isPlainChar {c : Char} (h : isPlainChar c = true) : isTypeChar c = true := by
  simp [isTypeChar, isWord_of_isPlainChar h]

theorem isNameChar_of_isPlainChar {c : Char} (h : isPlainChar c = true) : isNameChar c = true := by
  simp [isNameChar, isWord_of_isPlainChar h]

theorem isTypeChar_of_isMark {c : Char} (h : isMark c = true) : isTypeChar c = true := by
  rcases isMark_iff.1 h with rfl | rfl <;> decide

theorem isNameChar_of_isMark {c : Char} (h : isMark c = true) : isNameChar c = true := by
  rcases isMark_iff.1 h with rfl | rfl <;> decide

/-- An identifier in front of a blank is read as a word of a type. -/
theorem typeWord?_append {word : List Char} (hword : isIdentifier word = true) (tail : List Char) :
    typeWord? (word ++ ' ' :: tail) = some (word, trimStart tail) := by
  have hchars : ∀ c ∈ word, isTypeChar c = true :=
    fun c hc => isTypeChar_of_isPlainChar (isPlainChar_of_mem hword c hc)
  have hblanks : afterBlanks? (' ' :: tail) = some (trimStart tail) := by
    rw [afterBlanks?, if_pos (by decide)]
  rw [typeWord?, takeWhile_append_cons hchars (by decide), if_neg (isIdentifier_ne_nil hword),
    dropWhile_append_cons hchars (by decide), hblanks]
  rfl

/-- A run of characters with which a name may be written, directly before a parenthesis. -/
structure IsNameRun (name : List Char) : Prop where
  ne_nil : name ≠ []
  chars : ∀ c ∈ name, isPlainChar c = true ∨ isMark c = true
  opening : startsWith "operator".toList name = false

variable {name : List Char}

theorem IsNameRun.isBlank (h : IsNameRun name) : ∀ c ∈ name, Text.isBlank c = false := fun c hc =>
  (h.chars c hc).elim isBlank_of_isPlainChar isBlank_of_isMark

/-- The marks and the name of a member are one run. -/
theorem IsLead.isNameRun {marks : List Char} (h : IsLead name)
    (hmarks : ∀ c ∈ marks, isMark c = true) : IsNameRun (marks ++ name) where
  ne_nil := List.append_ne_nil_of_right_ne_nil _ (isIdentifier_ne_nil h.isIdentifier)
  chars := fun c hc => (List.mem_append.1 hc).elim (fun hc => .inr (hmarks c hc))
    fun hc => .inl (isPlainChar_of_mem h.isIdentifier c hc)
  opening := by
    cases marks with
    | nil => exact h.startsWith_operator
    | cons c marks =>
      have hc : 'o' ≠ c := by
        rintro rfl
        exact absurd (hmarks 'o' List.mem_cons_self) (by decide)
      simp [startsWith, after?, hc]

/-- A name in front of a parenthesis is read as a name. -/
theorem memberName?_append (h : IsNameRun name) (rest : List Char) :
    memberName? (name ++ '(' :: rest) = some (name, '(' :: rest) := by
  have hchars : ∀ c ∈ name, isNameChar c = true :=
    fun c hc => (h.chars c hc).elim isNameChar_of_isPlainChar isNameChar_of_isMark
  have hoperator : operatorName? (name ++ '(' :: rest) = none := by
    rw [operatorName?, after?_append_cons (by decide), after?_eq_none_iff.2 h.opening]
    rfl
  rw [memberName?, hoperator, takeWhile_append_cons hchars (by decide),
    dropWhile_append_cons hchars (by decide)]
  exact if_neg h.ne_nil

/-- A name in front of a parenthesis is no word of a type. -/
theorem typeWord?_nameRun (h : IsNameRun name) (rest : List Char) :
    typeWord? (name ++ '(' :: rest) = none := by
  have hchars : ∀ c ∈ name, isTypeChar c = true :=
    fun c hc => (h.chars c hc).elim isTypeChar_of_isPlainChar isTypeChar_of_isMark
  rw [typeWord?, dropWhile_append_cons hchars (by decide)]
  split
  · rfl
  · simp [afterBlanks?, show Text.isBlank '(' = false by decide]

/-- As many words are read as stand before the name, since the parenthesis behind it ends no
word. -/
theorem headFrom_spaced {words : List (List Char)} (hwords : ∀ w ∈ words, isIdentifier w = true)
    (hname : IsNameRun name) (rest : List Char) {fuel : Nat} (hfuel : words.length ≤ fuel) :
    headFrom fuel (spaced words ++ name ++ '(' :: rest) = some ⟨words, name, '(' :: rest⟩ := by
  induction words generalizing fuel with
  | nil =>
    rw [spaced_nil, List.nil_append]
    cases fuel with
    | zero => rw [headFrom, memberName?_append hname]; rfl
    | succ fuel => rw [headFrom, typeWord?_nameRun hname, memberName?_append hname]; rfl
  | cons w words ih =>
    obtain ⟨hw, hwords⟩ := List.forall_mem_cons.1 hwords
    obtain ⟨fuel, rfl⟩ : ∃ n, fuel = n + 1 := ⟨fuel - 1, by rw [List.length_cons] at hfuel; omega⟩
    have htail := ih hwords (Nat.le_of_succ_le_succ hfuel)
    have htrim : trimStart (spaced words ++ name ++ '(' :: rest)
        = spaced words ++ name ++ '(' :: rest := by
      cases words with
      | nil => exact trimStart_append hname.ne_nil hname.isBlank _
      | cons w' words =>
        have hw' := hwords w' List.mem_cons_self
        rw [spaced_cons, List.append_assoc, List.append_assoc]
        exact trimStart_append (isIdentifier_ne_nil hw')
          (fun c hc => isBlank_of_isPlainChar (isPlainChar_of_mem hw' c hc)) _
    rw [spaced_cons, List.append_assoc, List.append_assoc, List.cons_append, headFrom,
      typeWord?_append hw, ← List.append_assoc, htrim]
    simp only [htail]

/-- Words with blanks behind them take at least one character each. -/
theorem length_le_length_spaced (words : List (List Char)) :
    words.length ≤ (spaced words).length := by
  induction words with
  | nil => exact Nat.le_refl 0
  | cons w words ih =>
    rw [spaced_cons, List.length_append, List.length_cons, List.length_cons]
    omega

/-- Words, a name and a parenthesis are read as the head of a member. -/
theorem head?_spaced {words : List (List Char)} (hwords : ∀ w ∈ words, isIdentifier w = true)
    (hname : IsNameRun name) (rest : List Char) :
    head? (spaced words ++ name ++ '(' :: rest) = some ⟨words, name, '(' :: rest⟩ := by
  refine headFrom_spaced hwords hname rest ?_
  have hlength := length_le_length_spaced words
  rw [List.length_append, List.length_append]
  omega

/-! ## Functions -/

/-- The specifiers of a function that are kept. -/
def flagWords (isStatic isConstexpr : Bool) : List (List Char) :=
  (if isStatic then ["static".toList] else []) ++ if isConstexpr then ["constexpr".toList] else []

/-- What stands behind the parameters of a function. -/
def trailer (immutable : Bool) (marks : Nat) : List Char :=
  (if immutable then " const".toList else []) ++
    (if marks = 0 then [] else ' ' :: List.replicate marks '&') ++ [';']

/-- The specifiers that are kept are two. -/
theorem mem_flagWords {isStatic isConstexpr : Bool} {word : List Char}
    (h : word ∈ flagWords isStatic isConstexpr) :
    word = "static".toList ∨ word = "constexpr".toList := by
  cases isStatic <;> cases isConstexpr <;> simp_all [flagWords]

/-- A specifier that is kept opens no statement of another kind. -/
theorem isLead_of_mem_flagWords {isStatic isConstexpr : Bool} {word : List Char}
    (h : word ∈ flagWords isStatic isConstexpr) : IsLead word := by
  rcases mem_flagWords h with rfl | rfl
  · exact ⟨by decide, by decide⟩
  · exact ⟨by decide, by decide⟩

/-- What is kept is a specifier. -/
theorem contains_specifiers_flagWords {isStatic isConstexpr : Bool} :
    ∀ word ∈ flagWords isStatic isConstexpr, specifiers.contains word = true := by
  intro word h
  rcases mem_flagWords h with rfl | rfl <;> decide

variable {words : List (List Char)} {marks : List Char}

/-- The specifiers in front of free words are found. -/
theorem specifiersOf_flagWords (hwords : ∀ w ∈ words, IsFree w) (isStatic isConstexpr : Bool) :
    specifiersOf (flagWords isStatic isConstexpr ++ words) = flagWords isStatic isConstexpr := by
  have hnil : words.takeWhile (fun word => specifiers.contains word) = [] := by
    cases words with
    | nil => rfl
    | cons w words =>
      exact List.takeWhile_cons_of_neg (by simpa using (hwords w List.mem_cons_self).specifier)
  rw [specifiersOf, List.takeWhile_append_of_pos contains_specifiers_flagWords, hnil,
    List.append_nil]

/-- The type is made of the words that are no specifiers. -/
theorem typeOf_flagWords (hwords : ∀ w ∈ words, IsFree w) (isStatic isConstexpr : Bool) :
    typeOf (flagWords isStatic isConstexpr ++ words) = [' '].intercalate words := by
  have hself : words.dropWhile (fun word => specifiers.contains word) = words := by
    cases words with
    | nil => rfl
    | cons w words =>
      exact List.dropWhile_cons_of_neg (by simpa using (hwords w List.mem_cons_self).specifier)
  rw [typeOf, List.dropWhile_append_of_pos contains_specifiers_flagWords, hself]

/-- The type in front of a name does not name an operator. -/
theorem startsWith_operator_intercalate (hwords : ∀ w ∈ words, IsFree w) :
    startsWith "operator".toList ([' '].intercalate words) = false := by
  cases words with
  | nil => rfl
  | cons w words =>
    have hw := (hwords w List.mem_cons_self).startsWith_operator
    by_cases hnil : words = []
    · rwa [hnil, List.intercalate_singleton]
    · rw [List.intercalate_cons_of_ne_nil hnil, List.append_assoc, List.singleton_append,
        startsWith_append_cons (by decide)]
      exact hw

/-- The marks in front of a name go back to its type. -/
theorem moveMarks_text (hwords : ∀ w ∈ words, isIdentifier w = true)
    (hmarks : ∀ c ∈ marks, isMark c = true) (hne : words = [] → marks = [])
    (hname : isIdentifier name = true) :
    moveMarks ([' '].intercalate words) (marks ++ name) = (text words marks, name) := by
  have hplain := isPlainChar_of_mem hname
  have hnone : name.takeWhile isMark = [] ∧ name.dropWhile isMark = name := by
    obtain ⟨c, name, rfl⟩ := List.exists_cons_of_ne_nil (isIdentifier_ne_nil hname)
    have hc : ¬isMark c = true := by
      simp [isMark_of_isPlainChar (hplain c List.mem_cons_self)]
    exact ⟨List.takeWhile_cons_of_neg hc, List.dropWhile_cons_of_neg hc⟩
  have hall : name.all isWord = true :=
    List.all_eq_true.2 fun c hc => isWord_of_isPlainChar (hplain c hc)
  rw [moveMarks, List.takeWhile_append_of_pos hmarks, List.dropWhile_append_of_pos hmarks,
    hnone.1, hnone.2, List.append_nil]
  by_cases hnil : marks = []
  · simp [hnil, text]
  · have htrim := trim_marks (mt hne hnil) hwords hnil hmarks
    simp [hnil, isIdentifier_ne_nil hname, hall, htrim, text]

/-- What is printed behind the parameters is read as the same qualifiers. -/
theorem qualifiers_trailer (immutable : Bool) {reference : Nat} (h : reference ≤ 2) :
    qualifiers (trailer immutable reference) = (immutable, reference) := by
  obtain rfl | rfl | rfl : reference = 0 ∨ reference = 1 ∨ reference = 2 := by omega
  all_goals cases immutable <;> decide

/-- A declaration ends behind its semicolon. -/
theorem functionTail_trailer (immutable : Bool) {reference : Nat} (h : reference ≤ 2)
    (rest : List Line) :
    Block.functionTail rest (trailer immutable reference) rest = .ok rest := by
  have hcode : (Source.code (trailer immutable reference)).contains '\x7b' = false ∧
      (Source.code (trailer immutable reference)).contains ';' = true := by
    obtain rfl | rfl | rfl : reference = 0 ∨ reference = 1 ∨ reference = 2 := by omega
    all_goals cases immutable <;> decide
  cases rest <;> rw [Block.functionTail.eq_def] <;> simp only [hcode.1, hcode.2,
    Bool.false_eq_true, if_false, if_true]

/-- The parts of the declaration of a function. -/
structure Prototype where
  isStatic : Bool
  isConstexpr : Bool
  words : List (List Char)
  marks : List Char
  name : List Char
  parameters : List Char
  immutable : Bool
  reference : Nat
  isFree : ∀ w ∈ words, IsFree w
  isMark : ∀ c ∈ marks, isMark c = true
  /-- Marks stand behind words only. -/
  marks_eq_nil : words = [] → marks = []
  isLead : IsLead name
  balanced : Source.Balanced parameters
  reference_le : reference ≤ 2

namespace Prototype

variable (p : Prototype)

/-- The words in front of the name. -/
def front : List (List Char) := flagWords p.isStatic p.isConstexpr ++ p.words

/-- What follows the parenthesis that opens the parameters. -/
def behind : List Char := p.parameters ++ ')' :: trailer p.immutable p.reference

/-- The line that declares a function. -/
def line : Line := spaced p.front ++ (p.marks ++ p.name) ++ '(' :: p.behind

/-- What the line says. -/
def head : FunctionHead where
  name := String.ofList p.name
  type := String.ofList (text p.words p.marks)
  parameters := String.ofList (trim p.parameters)
  immutable := p.immutable
  static := p.isStatic
  constexpr := p.isConstexpr
  reference := p.reference

/-- Every word in front of the name may lead a statement. -/
theorem isLead_of_mem_front {word : List Char} (h : word ∈ p.front) : IsLead word := by
  rcases List.mem_append.1 h with h | h
  · exact isLead_of_mem_flagWords h
  · exact (p.isFree word h).toIsLead

theorem isIdentifier_of_mem_front : ∀ word ∈ p.front, isIdentifier word = true :=
  fun _ h => (p.isLead_of_mem_front h).isIdentifier

/-- The words, the parameters and the qualifiers of a function make up its statement. -/
theorem readFunction_eq (rest : List Line) :
    readFunction ⟨p.front, p.marks ++ p.name, '(' :: p.behind⟩ p.behind rest =
      .ok (.function p.head, rest) := by
  have hstatic : (flagWords p.isStatic p.isConstexpr).contains "static".toList = p.isStatic := by
    cases p.isStatic <;> cases p.isConstexpr <;> decide
  have hconstexpr :
      (flagWords p.isStatic p.isConstexpr).contains "constexpr".toList = p.isConstexpr := by
    cases p.isStatic <;> cases p.isConstexpr <;> decide
  have hmove := moveMarks_text (fun w hw => (p.isFree w hw).isIdentifier) p.isMark p.marks_eq_nil
    p.isLead.isIdentifier
  rw [readFunction, behind, Block.parenthesized_balanced p.balanced]
  simp only [bind, Except.bind, pure, Except.pure, qualifiers_trailer p.immutable p.reference_le,
    functionTail_trailer p.immutable p.reference_le, front, typeOf_flagWords p.isFree,
    startsWith_operator_intercalate p.isFree, Bool.false_eq_true, if_false, hmove,
    specifiersOf_flagWords p.isFree, joinLines_singleton, hstatic, hconstexpr, head]

/-- The line begins with a word of its own. -/
theorem exists_lead :
    ∃ lead c tail, p.line = lead ++ c :: tail ∧ IsLead lead ∧ (c = ' ' ∨ c = '(') := by
  rw [line]
  cases hfront : p.front with
  | nil =>
    have hwords : p.words = [] := (List.append_eq_nil_iff.1 hfront).2
    exact ⟨p.name, '(', p.behind, by rw [p.marks_eq_nil hwords]; rfl, p.isLead, .inr rfl⟩
  | cons lead words =>
    have hlead := p.isLead_of_mem_front (hfront ▸ List.mem_cons_self)
    exact ⟨lead, ' ', spaced words ++ (p.marks ++ p.name) ++ '(' :: p.behind,
      by simp, hlead, .inl rfl⟩

theorem exists_cons : ∃ c cs, p.line = c :: cs ∧ isBlank c = false := by
  obtain ⟨lead, c, tail, hline, hlead, -⟩ := p.exists_lead
  obtain ⟨d, lead, rfl⟩ := List.exists_cons_of_ne_nil (isIdentifier_ne_nil hlead.isIdentifier)
  exact ⟨d, lead ++ c :: tail, hline,
    isBlank_of_isPlainChar (isPlainChar_of_mem hlead.isIdentifier d List.mem_cons_self)⟩

/-- No blanks stand around the line. -/
theorem trim_line : trim p.line = p.line := by
  obtain ⟨c, cs, hline, hc⟩ := p.exists_cons
  refine trim_eq_self (fun d hd => ?_) fun d hd => ?_
  · rw [hline] at hd
    exact Option.some.inj hd ▸ hc
  · have hend : ∃ cs, p.line = cs ++ [';'] :=
      ⟨spaced p.front ++ (p.marks ++ p.name) ++ '(' :: (p.parameters ++ ')' ::
        ((if p.immutable then " const".toList else []) ++
          if p.reference = 0 then [] else ' ' :: List.replicate p.reference '&')),
        by simp [line, behind, trailer]⟩
    obtain ⟨cs, hend⟩ := hend
    rw [hend, List.getLast?_concat] at hd
    obtain rfl : ';' = d := Option.some.inj hd
    decide

/-- No colon stands before the parameters. -/
theorem isAccessLabel_line : Token.isAccessLabel p.line = false := by
  have hcolon : ':' ∉ spaced p.front ++ (p.marks ++ p.name) := by
    intro hmem
    rcases List.mem_append.1 hmem with hmem | hmem
    · rcases mem_spaced p.isIdentifier_of_mem_front hmem with h | h <;> exact absurd h (by decide)
    · rcases (p.isLead.isNameRun p.isMark).chars _ hmem with h | h <;> exact absurd h (by decide)
  refine Bool.eq_false_iff.2 fun hlabel => ?_
  obtain ⟨word, hword, hstart⟩ := List.any_eq_true.1 hlabel
  have hparenthesis : '(' ∉ word.toList := by
    simp only [List.mem_cons, List.not_mem_nil, or_false] at hword
    rcases hword with rfl | rfl | rfl <;> decide
  rw [line, after?_append_cons hparenthesis] at hstart
  cases hafter : after? word.toList (spaced p.front ++ (p.marks ++ p.name)) with
  | none => simp [hafter] at hstart
  | some rest =>
    rw [after?_eq_some_iff] at hafter
    have hrest : ':' ∉ rest := fun hmem => hcolon (hafter ▸ List.mem_append_right _ hmem)
    simp [after?_eq_some_iff.2 hafter, startsWith_trimStart hrest (by decide)] at hstart

/-- A declaration without attributes is read as what it says. -/
theorem read_line (hattributes : ∀ word ∈ wordRuns false p.line, word ∉ attributeWords)
    (rest : List Line) : Member.read p.line rest = .ok (.function p.head, false, rest) := by
  have hdrop : dropAttributes p.line = p.line := by
    obtain ⟨c, cs, hline, hc⟩ := p.exists_cons
    rw [dropAttributes, dropAttributesFrom_eq_self hattributes, hline, trimStart_cons hc]
  have hhead : head? p.line = some ⟨p.front, p.marks ++ p.name, '(' :: p.behind⟩ :=
    head?_spaced p.isIdentifier_of_mem_front (p.isLead.isNameRun p.isMark) p.behind
  have hbehind : trimStart ('(' :: p.behind) = '(' :: p.behind := trimStart_cons (by decide) _
  simp only [Member.read, hdrop, hhead, hbehind, p.readFunction_eq, Except.map]

end Prototype

/-! ## Lines that begin with a word -/

/-- A line that begins with a word of its own begins no definition of a type and no record. -/
theorem IsLead.declares {lead tail : Line} {c : Char} (h : IsLead lead) (hc : c = ' ' ∨ c = '(') :
    Declares (lead ++ c :: tail) := by
  have hword {opening : Line} (hmem : opening ∈ openings) :
      after? opening (lead ++ c :: tail) = none := h.after?_opening hc hmem
  generalize lead ++ c :: tail = line at *
  -- each of these readers asks for one of the openings first
  have htypedef : after? "typedef".toList line = none := hword (by decide)
  have husing : after? "using".toList line = none := hword (by decide)
  have hstruct : after? "struct".toList line = none := hword (by decide)
  have hclass : after? "class".toList line = none := hword (by decide)
  have hunion : after? "union".toList line = none := hword (by decide)
  have henum : after? "enum".toList line = none := hword (by decide)
  constructor
  case pointer =>
    simp only [Alias.pointer?, Alias.afterKeyword?, htypedef]
    rfl
  case definition =>
    simp only [Alias.definition?, Alias.afterKeyword?, htypedef]
    rfl
  case usingName => exact after?_eq_none_iff.1 husing
  case forward =>
    simp only [Alias.forward?, hstruct, hclass]
    rfl
  case record =>
    intro _
    have hdefined : (after? "typedef".toList line >>= afterBlanks?) = none := by
      rw [htypedef]
      rfl
    have hkeyword : Record.keyword? line = none := by
      simp only [Record.keyword?, hstruct, hclass, hunion, henum]
      rfl
    simp only [Record.opening?, hdefined, Option.getD_none, hkeyword]
    rfl

end Member

namespace Token

open Member

/-- A line that begins with a word character is no comment and no directive. -/
theorem readStatement_word (mode : Mode) {raw line : Line} {c : Char} (hc : isWord c = true)
    (hline : line.head? = some c) (htrim : trim raw = line) (number : Int) (scopes : List Scope)
    (rest : List Line) :
    readStatement mode raw number scopes rest = readCode mode raw line number scopes rest := by
  subst htrim
  have hmark {p : Char} (ps : Line) (hp : isWord p = false) :
      startsWith (p :: ps) (trim raw) = false := by
    obtain ⟨tail, htrim⟩ := List.head?_eq_some_iff.1 hline
    have hne : p ≠ c := by
      rintro rfl
      rw [hc] at hp
      cases hp
    rw [htrim, ← after?_eq_none_iff, after?, if_neg hne]
  exact readStatement_eq_readCode (hmark ['/'] (by decide)) (hmark ['*'] (by decide))
    (hmark [] (by decide))

/-- A line that begins with an identifier is no comment and no directive. -/
theorem readStatement_code (mode : Mode) {raw lead tail : Line} (hlead : isIdentifier lead = true)
    (htrim : trim raw = lead ++ tail) (number : Int) (scopes : List Scope) (rest : List Line) :
    readStatement mode raw number scopes rest =
      readCode mode raw (lead ++ tail) number scopes rest := by
  obtain ⟨c, lead, rfl⟩ := List.exists_cons_of_ne_nil (isIdentifier_ne_nil hlead)
  exact readStatement_word mode
    (isWord_of_isPlainChar (isPlainChar_of_mem hlead c List.mem_cons_self)) rfl htrim number scopes
    rest

/-- A line that begins with a word of its own is one of a member, unless it is an access label or is
passed over. -/
theorem isMember_of_isLead {mode : Mode} {lead tail : Line} {c : Char}
    (henumerators : mode.enumerators = false) (hlead : IsLead lead) (hc : c = ' ' ∨ c = '(')
    (hignored : startsWithAny mode.ignored (lead ++ c :: tail) = false)
    (hlabel : isAccessLabel (lead ++ c :: tail) = false) : IsMember mode (lead ++ c :: tail) := by
  have hword {opening : Line} (hmem : opening ∈ openings) :
      after? opening (lead ++ c :: tail) = none := hlead.after?_opening hc hmem
  have hmark {p : Char} (ps : Line) (hp : isPlainChar p = false) :
      startsWith (p :: ps) (lead ++ c :: tail) = false :=
    startsWith_of_isIdentifier hlead.isIdentifier hp
  have hdeclares : Declares (lead ++ c :: tail) := hlead.declares hc
  generalize lead ++ c :: tail = line at *
  have hextern : after? "extern".toList line = none := hword (by decide)
  have hnamespace : after? "namespace".toList line = none := hword (by decide)
  have htemplate : after? "template".toList line = none := hword (by decide)
  constructor
  case enumerators => exact henumerators
  case lineComment => exact hmark ['/'] (by decide)
  case blockComment => exact hmark ['*'] (by decide)
  case directive => exact hmark [] (by decide)
  case passed => exact hignored
  case label => exact hlabel
  case linkage =>
    simp only [isLinkage, hextern]
    rfl
  case scopeEnd => exact hmark [] (by decide)
  case brace =>
    rintro rfl
    cases hmark (p := '\x7b') [] (by decide)
  case namespaceName =>
    simp only [namespaceName?, hnamespace]
    rfl
  case template =>
    simp only [templateStart?, htemplate]
    rfl
  case declares => exact hdeclares

/-- The line of a function is one statement, whatever follows it. -/
theorem readStatement_prototype {mode : Mode} (henumerators : mode.enumerators = false)
    (p : Prototype) (hattributes : ∀ word ∈ wordRuns false p.line, word ∉ attributeWords)
    (hignored : startsWithAny mode.ignored p.line = false) (number : Int) (scopes : List Scope)
    (rest : List Line) :
    readStatement mode p.line number scopes rest =
      .ok { statement := .function p.head, scopes, rest } := by
  obtain ⟨lead, c, tail, hline, hlead, hc⟩ := p.exists_lead
  have hmember : IsMember mode (trim p.line) := by
    rw [p.trim_line, hline]
    exact isMember_of_isLead henumerators hlead hc (hline ▸ hignored) (hline ▸ p.isAccessLabel_line)
  rw [readStatement_of_isMember hmember, p.trim_line, readMember, p.read_line hattributes]
  rfl

end Token

end HeaderApi
