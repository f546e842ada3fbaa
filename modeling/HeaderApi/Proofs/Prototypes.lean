import HeaderApi.Proofs.DocumentedEntries
import HeaderApi.Proofs.FunctionHeads

/-!
# Printed prototypes

A function that is printed with its doc comment is read back as the same entry, when its type, its
doc and its parameters are spelled as they are read.
-/

namespace HeaderApi

open Text

/-! ## The lines of a function -/

/-- A function that can be told from its printed lines. -/
structure Entry.IsPrototype (e : Entry) : Prop where
  kind : e.kind = .function
  name : Member.IsFree e.name.toList
  type : e.type = none ∨ ∃ words marks, words ≠ [] ∧ (∀ w ∈ words, Member.IsFree w) ∧
    (∀ c ∈ marks, Spelling.isMark c = true) ∧
    e.type = some (String.ofList (Spelling.text words marks))
  parameters : ∃ ps, e.parameters = some ps ∧ Parameter.parseList (Parameter.printList ps) = ps ∧
    Source.Balanced (Parameter.printList ps)
  immutable : e.immutable ≠ some false
  static : e.static ≠ some false
  constexpr : e.constexpr ≠ some false
  reference : e.reference = none ∨ e.reference = some 1 ∨ e.reference = some 2
  doc : IsPlainDoc e.doc.toList
  unused : e.template = none ∧ e.value = none ∧ e.sourceName = none ∧ e.beginLine = none ∧
    e.declLine = none ∧ e.endLine = none ∧ e.members = none
  attributes : ∀ word ∈ wordRuns false e.functionLine, word ∉ Member.attributeWords
  ignored : startsWithAny ({} : Token.Mode).ignored e.functionLine = false

namespace Signature

/-- What the declaration of a function says about itself. -/
def ofPrototype (p : Member.Prototype) (doc : String) : Signature where
  name := String.ofList p.name
  kind := .function
  doc
  type := Header.typeField (String.ofList (Spelling.text p.words p.marks))
  parameters := some (Parameter.parseList p.parameters)
  immutable := Header.flag p.immutable
  constexpr := Header.flag p.isConstexpr
  static := Header.flag p.isStatic
  reference := if p.reference = 0 then none else some p.reference

/-- A flag is printed as a word of its own, when it is set. -/
theorem flagWord_eq (content : Option Bool) (word : String) (line : Line) :
    flagWord content word line =
      spaced (if content = some true then [word.toList] else []) ++ line := by
  rw [flagWord]
  split <;> simp

/-- The line of a function: the words in front of its name, the marks, the name and what follows
it. -/
theorem functionLine_eq {s : Signature} {words : List (List Char)} {marks : List Char}
    (hdeclare : ∀ name, Declarator.declare s.typeText name = spaced words ++ marks ++ name)
    (hreference : s.reference = none ∨ s.reference = some 1 ∨ s.reference = some 2) :
    s.functionLine =
      spaced (Member.flagWords (decide (s.static = some true)) (decide (s.constexpr = some true)) ++
          words) ++ (marks ++ s.name.toList) ++
        '(' :: (parameterText s.parameters ++ ')' ::
          Member.trailer (decide (s.immutable = some true)) (s.reference.getD 0).toNat) := by
  have hflags : spaced (Member.flagWords (decide (s.static = some true))
      (decide (s.constexpr = some true)) ++ words) =
      spaced (if s.static = some true then ["static".toList] else []) ++
        (spaced (if s.constexpr = some true then ["constexpr".toList] else []) ++
          spaced words) := by
    simp only [Member.flagWords, spaced_append, decide_eq_true_eq, List.append_assoc]
  have himmutable (text : Line) :
      (if s.immutable = some true then text ++ " const".toList else text) =
        text ++ if s.immutable = some true then " const".toList else [] := by
    split
    · rfl
    · rw [List.append_nil]
  rw [hflags, functionLine]
  simp only [hdeclare, flagWord_eq, himmutable, Member.trailer, decide_eq_true_eq]
  -- what the words say does not matter for the rest
  generalize (if s.immutable = some true then " const".toList else []) = immutable
  generalize spaced (if s.static = some true then ["static".toList] else []) = static
  generalize spaced (if s.constexpr = some true then ["constexpr".toList] else []) = constexpr
  rcases hreference with h | h | h
  · simp [h]
  · simp [h]
  · simp [h]

end Signature

/-- The type of a function, which may have none, as words and marks. -/
theorem Entry.IsPrototype.exists_type {e : Entry} (h : e.IsPrototype) :
    ∃ words marks, (∀ w ∈ words, Member.IsFree w) ∧ (∀ c ∈ marks, Spelling.isMark c = true) ∧
      (words = [] → marks = []) ∧
      (∀ name, Declarator.declare e.typeText name = spaced words ++ marks ++ name) ∧
      Header.typeField (String.ofList (Spelling.text words marks)) = e.type := by
  rcases h.type with hnone | ⟨words, marks, hne, hwords, hmarks, htype⟩
  · refine ⟨[], [], by simp, by simp, fun _ => rfl, fun name => ?_, ?_⟩
    · rw [Signature.typeText, hnone]
      rfl
    · rw [hnone]
      rfl
  · have hidentifiers : ∀ w ∈ words, isIdentifier w = true := fun w hw => (hwords w hw).isIdentifier
    refine ⟨words, marks, hwords, hmarks, fun hnil => absurd hnil hne, fun name => ?_, ?_⟩
    · rw [Signature.typeText, htype]
      simpa using Declarator.declare_text hne hidentifiers hmarks name
    · obtain ⟨c, hlast, -⟩ := Declarator.exists_getLast?_intercalate hne hidentifiers
      have htext : Spelling.text words marks ≠ [] := by
        intro hnil
        rw [(List.append_eq_nil_iff.1 hnil).1] at hlast
        cases hlast
      rw [Header.typeField, if_neg (by simpa using htext), String.toList_ofList,
        Spelling.normalize_text hne hidentifiers hmarks, htype]

/-- The line of a function that can be told from it is that of a declaration, which says what the
function is. -/
theorem Entry.IsPrototype.exists_prototype {e : Entry} (h : e.IsPrototype) :
    ∃ p : Member.Prototype, e.functionLine = p.line ∧
      e = ⟨Signature.ofPrototype p e.doc, none⟩ := by
  obtain ⟨words, marks, hwords, hmarks, hne, hdeclare, htype⟩ := h.exists_type
  obtain ⟨ps, hps, hread, hbalanced⟩ := h.parameters
  have hreference : (e.reference.getD 0).toNat ≤ 2 := by
    rcases h.reference with h | h | h <;> rw [h] <;> decide
  let p : Member.Prototype := {
    isStatic := decide (e.static = some true)
    isConstexpr := decide (e.constexpr = some true)
    words
    marks
    name := e.name.toList
    parameters := Parameter.printList ps
    immutable := decide (e.immutable = some true)
    reference := (e.reference.getD 0).toNat
    isFree := hwords
    isMark := hmarks
    marks_eq_nil := hne
    isLead := h.name.toIsLead
    balanced := hbalanced
    reference_le := hreference }
  refine ⟨p, ?_, ?_⟩
  · rw [Signature.functionLine_eq hdeclare h.reference, hps]
    rfl
  · -- the flags and the reference are read back from their words
    have hflag {content : Option Bool} (hcontent : content ≠ some false) :
        Header.flag (decide (content = some true)) = content := by
      match content, hcontent with
      | none, _ => rfl
      | some true, _ => rfl
    have hmarks : (if (e.reference.getD 0).toNat = 0 then none
        else some ((e.reference.getD 0).toNat : Int)) = e.reference := by
      rcases h.reference with h | h | h <;> rw [h] <;> rfl
    obtain ⟨htemplate, hvalue, hsource, hbegin, hdecl, hend, hmembers⟩ := h.unused
    have heta : e = ⟨⟨e.name, e.kind, e.doc, e.type, e.parameters, e.template, e.immutable,
      e.constexpr, e.static, e.reference, e.value, e.sourceName, e.beginLine, e.declLine,
      e.endLine⟩, e.members⟩ := e.eta
    refine heta.trans ?_
    simp only [Signature.ofPrototype, p, String.ofList_toList, htype, hread, hflag h.immutable,
      hflag h.constexpr, hflag h.static, hmarks, h.kind, hps, htemplate, hvalue, hsource, hbegin,
      hdecl, hend, hmembers]

/-- A function is printed as its doc and one line. -/
theorem Entry.lines_function (e : Entry) (indent : Line) (hkind : e.kind = .function)
    (htemplate : e.template = none) (hmembers : e.members = none) :
    e.lines indent = docLines indent e.doc ++ [indent ++ e.functionLine] := by
  obtain ⟨s, members⟩ := e
  obtain rfl : members = none := hmembers
  have hkind : s.kind = .function := hkind
  have htemplate : s.template = none := htemplate
  rw [Entry.lines, Signature.frontLines, Signature.declarationLines, htemplate, hkind]
  simp only [List.append_nil]

/-! ## The tokens of the lines -/

namespace Token

/-- The tokens of the line of a function that ends the text. -/
def prototypeTokens (p : Member.Prototype) (line : Int) : List Token :=
  [⟨.function p.head, line, line + 1, 0⟩, ⟨.eof, line + 1, line + 1, 0⟩]

variable {p : Member.Prototype}

/-- A printed prototype has no indent. -/
theorem indentation_prototype (p : Member.Prototype) : indentation p.line = 0 := by
  obtain ⟨c, cs, hline, hc⟩ := p.exists_cons
  rw [indentation, hline, List.takeWhile_cons_of_neg (by simp [hc])]
  rfl

theorem allBlank_prototype (p : Member.Prototype) : allBlank p.line = false := by
  obtain ⟨c, cs, hline, hc⟩ := p.exists_cons
  rw [hline, allBlank_cons, hc, Bool.false_and]

/-- The line of a prototype is one token. -/
theorem streamFrom_prototype
    (hattributes : ∀ word ∈ wordRuns false p.line, word ∉ Member.attributeWords)
    (hignored : startsWithAny ({} : Mode).ignored p.line = false) (fuel : Nat) (line : Int) :
    streamFrom {} (fuel + 2) ⟨line, [p.line], []⟩ = ⟨[], .ok (prototypeTokens p line)⟩ := by
  have hread : readStatement {} p.line line [] [] =
      .ok { statement := .function p.head, scopes := [], rest := [] } :=
    readStatement_prototype rfl p hattributes hignored line [] []
  have hend : line + 1 = line + (([] : List Line).length + 1) - ([] : List Line).length := by simp
  have hheight : ¬((30 : Nat) : Int) < line + 1 - line := by omega
  have hstep := step_of_readStatement (allBlank_prototype p) hread rfl hend
    (decide_eq_false hheight)
  rw [indentation_prototype] at hstep
  exact streamFrom_cons hstep (by simp) (streamFrom_nil _ _ _)

end Token

/-! ## The entry of the tokens -/

namespace Header

variable {p : Member.Prototype}

/-- The head of a prototype says what the prototype says. -/
theorem signature?_prototype (p : Member.Prototype) :
    signature? (.function p.head) = some (Signature.ofPrototype p "") := by
  have hparameters :
      Parameter.parseList (trim p.parameters) = Parameter.parseList p.parameters := by
    simp only [Parameter.parseList, collapse_trim]
  simp only [signature?, Member.Prototype.head, String.toList_ofList, hparameters,
    Signature.ofPrototype]
  rfl

/-- A function takes the doc comment that ends where it begins. -/
theorem declare_prototype (members : String → RecordHead → Logged ParseError Entries)
    (name : String) (doc : Option Pending) (line : Int) (hdoc : ∀ d ∈ doc, d.endLine = line) :
    Builder.declare members { name, options := {}, pendingDoc := doc }
        ⟨.function p.head, line, line + 1, 0⟩ (Signature.ofPrototype p "") =
      ⟨[], .ok (Builder.append { name, options := {} } ((doc.map Pending.beginLine).getD line)
        ⟨Signature.ofPrototype p ((doc.map Pending.text).getD ""), none⟩)⟩ := by
  have hname : String.ofList p.name ≠ "" := by
    simpa using isIdentifier_ne_nil p.isLead.isIdentifier
  exact Builder.declare_of_pending _ (b := { name, options := {} }) ⟨rfl, rfl, rfl⟩ hdoc rfl rfl rfl
    rfl hname List.not_mem_nil

/-- The token of a prototype gives a header with this one entry. -/
theorem ofTokens_prototype (name : String) (line : Int) :
    ofTokens name {} (Token.prototypeTokens p line) =
      ⟨[], .ok { name, entries := [(String.ofList p.name,
        .single ⟨Signature.ofPrototype p "", none⟩)] }⟩ := by
  have hdeclare (members : String → RecordHead → Logged ParseError Entries) :=
    declare_prototype (p := p) members name none line (by simp)
  simp only [ofTokens, Builder.runAll, Token.prototypeTokens, Builder.run, signature?_prototype,
    hdeclare, Logged.ok_bind]
  rfl

/-- A doc in front of the token goes to the entry. -/
theorem ofTokens_doc_prototype (name doc : String) (first line : Int) :
    ofTokens name {} (⟨.doc doc, first, line, 0⟩ :: Token.prototypeTokens p line) =
      ⟨[], .ok { name, entries := [(String.ofList p.name,
        .single ⟨Signature.ofPrototype p doc, none⟩)] }⟩ := by
  have hdeclare (members : String → RecordHead → Logged ParseError Entries) :=
    declare_prototype (p := p) members name (some ⟨doc, first, line⟩) line (by simp)
  simp only [ofTokens, Builder.runAll, Token.prototypeTokens, Builder.run, Builder.floatPending,
    signature?_prototype, writeAll, hdeclare, Logged.ok_bind]
  rfl

/-- **Reading a printed function.**  A function that can be told from its printed lines, with or
without a doc comment, is read back from them as it is: the header has no doc and that entry
alone. -/
theorem ofLines_lines_prototype {e : Entry} (h : e.IsPrototype) (name : String) :
    ofLines name {} (e.lines []) = ⟨[], .ok { name, entries := [(e.name, .single e)] }⟩ := by
  obtain ⟨p, hline, he⟩ := h.exists_prototype
  have hname : e.name = String.ofList p.name := congrArg (fun e : Entry => e.name) he
  have hlines : e.lines [] = docLines [] e.doc ++ [p.line] := by
    rw [e.lines_function [] h.kind h.unused.1 h.unused.2.2.2.2.2.2, hline, List.nil_append]
  have hstream := Token.streamFrom_prototype (hline ▸ h.attributes) (hline ▸ h.ignored)
  rw [ofLines, hlines, hname]
  by_cases hdoc : e.doc = ""
  · have htokens : Token.stream {} 1 (docLines [] e.doc ++ [p.line]) =
        ⟨[], .ok (Token.prototypeTokens p 1)⟩ := by
      rw [hdoc]
      exact hstream 0 1
    rw [htokens, he, hdoc]
    exact ofTokens_prototype name 1
  · -- the doc comment is a token in front of the one of the function
    have hskip : Token.skipBlankLines [p.line] = [p.line] :=
      List.dropWhile_cons_of_neg (by simp [Token.allBlank_prototype p])
    have hlength : (docLines [] e.doc).length = (lines e.doc.toList).length + 2 := by
      simp [docLines, hdoc]
    have hlater := hstream ((lines e.doc.toList).length + 1) (1 + (docLines [] e.doc).length)
    have htokens := Token.streamFrom_docLines (List.forall_mem_nil _) hdoc h.doc.unmarked_lines
      hskip rfl hlater
    rw [h.doc.docForm_eq, String.ofList_toList] at htokens
    have hfuel : (docLines [] e.doc ++ [p.line]).length + 1
        = (lines e.doc.toList).length + 1 + 2 + 1 := by
      rw [List.length_append, hlength, List.length_singleton]
    rw [Token.stream, hfuel, Token.Cursor.start, htokens]
    have hentry := ofTokens_doc_prototype (p := p) name e.doc 1 (1 + (docLines [] e.doc).length)
    rw [← he] at hentry
    exact hentry

/-- A function with parentheses, a comma and a quote inside a literal. -/
def labelEntry : Entry where
  name := "Outline"
  kind := .function
  doc := "Draws the outline.\n\n  - with a label"
  type := some "const Path *"
  parameters := some [
    .named "area" "const Rect &" none,
    .named "width" "int" (some "max(1, 2)"),
    .named "label" "const char *" (some "\"a, (\\\"b\"")]
  immutable := some true
  static := some true
  constexpr := some true
  reference := some 2

example : (labelEntry.lines []).map String.ofList = [
    "/**", " * Draws the outline.", " *", " *   - with a label", " */",
    "static constexpr const Path *Outline(const Rect &area, int width = max(1, 2), " ++
      "const char *label = \"a, (\\\"b\") const &&;"] := by
  decide +kernel

theorem balanced_labelEntry : Source.Balanced (Signature.parameterText labelEntry.parameters) := by
  have htext : Signature.parameterText labelEntry.parameters =
      "const Rect &area, int width = max".toList ++ '(' :: ("1, 2".toList ++ ')' ::
        (", const char *label = ".toList ++ '"' :: (("a, (".toList ++ '\\' :: '"' ::
          ("b".toList ++ ['"'])) ++ []))) := by
    decide
  have hlabel : Source.Closes '"' ("a, (".toList ++ '\\' :: '"' :: ("b".toList ++ ['"'])) :=
    .append (by simp) (.escaped '"' (.append (by simp) .quote))
  have harguments : Source.Balanced ("1, 2".toList ++ []) :=
    .append (by simp [Source.isQuote]) .nil
  rw [htext]
  exact .append (by simp [Source.isQuote]) (.group harguments
    (.append (by simp [Source.isQuote]) (.literal (by decide) hlabel .nil)))

theorem isPlainDoc_labelEntry : IsPlainDoc labelEntry.doc.toList where
  trimmed := by decide
  separator := by
    have hall : (labelEntry.doc.toList.all fun c => decide (isSeparator c = true → c = '\n'))
        = true := by
      decide
    exact fun c hc => of_decide_eq_true (List.all_eq_true.1 hall c hc)
  trimmedLines := by decide
  unmarked := by decide

theorem isPrototype_labelEntry : labelEntry.IsPrototype where
  kind := rfl
  name := ⟨⟨by decide, by decide⟩, by decide⟩
  type := by
    refine .inr ⟨["const".toList, "Path".toList], ['*'], by decide, ?_, ?_, by decide⟩
    · intro word hword
      simp only [List.mem_cons, List.not_mem_nil, or_false] at hword
      rcases hword with rfl | rfl
      · exact ⟨⟨by decide, by decide⟩, by decide⟩
      · exact ⟨⟨by decide, by decide⟩, by decide⟩
    · simp [Spelling.isMark]
  parameters := ⟨_, rfl, by decide, balanced_labelEntry⟩
  immutable := by decide
  static := by decide
  constexpr := by decide
  reference := .inr (.inr rfl)
  doc := isPlainDoc_labelEntry
  unused := ⟨rfl, rfl, rfl, rfl, rfl, rfl, rfl⟩
  attributes := by decide
  ignored := by decide

/-- A method with a template argument, a default value and qualifiers is printed and read again. -/
theorem ofLines_lines_labelEntry :
    labelEntry.IsPrototype ∧ ofLines "path.h" {} (labelEntry.lines []) =
      ⟨[], .ok { name := "path.h", entries := [("Outline", .single labelEntry)] }⟩ :=
  ⟨isPrototype_labelEntry, ofLines_lines_prototype isPrototype_labelEntry "path.h"⟩

end Header

end HeaderApi
