import HeaderApi.Proofs.Texts
import HeaderApi.Token.Stream

/-!
# The cases of a statement

A statement is read by trying its readers one after the other.  What each reader needs of the line
and what it gives is listed once: for members, for declarations, for statements that are no comment
and no directive, for all statements, and for the calls that give their tokens.  Whatever holds of
all statements is proved along these cases.
-/

namespace HeaderApi

open Text

/-! ## Readers that give a result -/

/-- A computation in two steps has a result when both steps have one. -/
theorem exists_ok_of_bind {α β : Type} {x : Except Fault α} {f : α → Except Fault β} {b : β}
    (h : x >>= f = .ok b) : ∃ a, x = .ok a ∧ f a = .ok b := by
  cases x with
  | error fault => cases h
  | ok a => exact ⟨a, rfl, h⟩

/-- What is made of a result is there when the result is. -/
theorem exists_ok_of_map {ε α β : Type} {x : Except ε α} {f : α → β} {b : β}
    (h : x.map f = .ok b) : ∃ a, x = .ok a ∧ f a = b := by
  cases x with
  | error fault => cases h
  | ok a => exact ⟨a, rfl, Except.ok.inj h⟩

/-! ## What the readers give -/

section Readers

variable {line raw : Line} {number : Int} {rest left : List Line} {statement : Statement}

/-- Line comments are a doc or a comment. -/
theorem Comment.readLines_cases (line : Line) (rest : List Line) :
    (∃ text, (readLines line rest).1 = .doc text) ∨ (readLines line rest).1 = .comment := by
  rw [readLines]
  dsimp only
  split
  · exact .inl ⟨_, rfl⟩
  · exact .inr rfl

/-- A block comment is a doc or a comment. -/
theorem Comment.readBlock_cases (h : readBlock line rest = .ok (statement, left)) :
    (∃ text, statement = .doc text) ∨ statement = .comment := by
  rw [readBlock] at h
  split at h
  · obtain ⟨_, -, heq⟩ := exists_ok_of_map h
    cases heq
    exact .inl ⟨_, rfl⟩
  · obtain ⟨_, -, heq⟩ := exists_ok_of_map h
    cases heq
    exact .inr rfl

/-- A directive is a definition or another directive. -/
theorem Directive.read_cases (line : Line) (rest : List Line) :
    (∃ text, (read line rest).1 = .directive text) ∨
    ∃ name parameters doc value, (read line rest).1 = .definition name parameters doc value := by
  rw [read]
  dsimp only
  split
  · split
    · exact .inl ⟨_, rfl⟩
    · exact .inr ⟨_, _, _, _, rfl⟩
  · exact .inl ⟨_, rfl⟩

/-- A function pointer is a callback. -/
theorem Alias.readPointer_cases {head : PointerHead}
    (h : readPointer head rest = .ok (statement, left)) :
    ∃ name type parameters, statement = .callback name type parameters := by
  rw [readPointer] at h
  obtain ⟨_, -, h⟩ := exists_ok_of_bind h
  dsimp only at h
  split at h
  · cases h
    exact ⟨_, _, _, rfl⟩
  · obtain ⟨_, -, h⟩ := exists_ok_of_bind h
    cases h
    exact ⟨_, _, _, rfl⟩

/-- An alias is one of a type, or unknown. -/
theorem Alias.readUsing_cases (h : readUsing line rest = .ok (statement, left)) :
    (∃ name type, statement = .typeAlias name type) ∨ ∃ text, statement = .unknown text := by
  rw [readUsing] at h
  split at h
  · cases h
    exact .inl ⟨_, _, rfl⟩
  · split at h
    · cases h
      exact .inr ⟨_, rfl⟩
    · dsimp only at h
      split at h
      · cases h
        exact .inl ⟨_, _, rfl⟩
      · obtain ⟨_, -, h⟩ := exists_ok_of_bind h
        cases h
        exact .inl ⟨_, _, rfl⟩

/-- A type definition on one line is an alias of a type. -/
theorem Alias.definition?_cases (h : definition? line = some statement) :
    ∃ name type, statement = .typeAlias name type := by
  simp only [definition?, Option.bind_eq_bind, Option.bind_eq_some_iff] at h
  obtain ⟨_, -, _, -, h⟩ := h
  split at h
  · cases h
    exact ⟨_, _, rfl⟩
  · cases h

/-- A forward declaration is one. -/
theorem Alias.forward?_cases (h : forward? line = some statement) :
    ∃ name, statement = .forward name := by
  simp only [forward?, Option.bind_eq_bind, Option.bind_eq_some_iff] at h
  obtain ⟨_, -, _, -, h⟩ := h
  split at h
  · cases h
    exact ⟨_, rfl⟩
  · cases h

/-- What has the body of a record is a record. -/
theorem Record.readBody_cases {opening : Opening} {base : List Char} {here : List Line}
    (h : readBody opening base here raw number rest = .ok (statement, left)) :
    ∃ head, statement = .record head := by
  rw [readBody] at h
  obtain ⟨⟨inside, passed, left'⟩, -, h⟩ := exists_ok_of_bind h
  dsimp only at h
  split at h
  · cases h
  · cases h
    exact ⟨_, rfl⟩

/-- What begins like a record is a record, or unknown. -/
theorem Record.read_cases {opening : Opening}
    (h : read opening raw number rest = .ok (statement, left)) :
    (∃ head, statement = .record head) ∨ ∃ text, statement = .unknown text := by
  rw [read] at h
  split at h
  · exact .inl (readBody_cases h)
  · obtain ⟨⟨found, here⟩, -, h⟩ := exists_ok_of_bind h
    cases found with
    | none =>
      cases h
      exact .inr ⟨_, rfl⟩
    | some line => exact .inl (readBody_cases h)

/-- What is read as a function is one. -/
theorem Member.readFunction_cases {head : Head} {parameters : Line}
    (h : readFunction head parameters rest = .ok (statement, left)) :
    ∃ function, statement = .function function := by
  rw [readFunction] at h
  obtain ⟨_, -, h⟩ := exists_ok_of_bind h
  obtain ⟨_, -, h⟩ := exists_ok_of_bind h
  cases h
  exact ⟨_, rfl⟩

/-- What is read as a variable is one, or unknown. -/
theorem Member.readVariable_cases {member : Line} {head : Head}
    (h : readVariable member head rest = .ok (statement, left)) :
    (∃ head', statement = .var head') ∨ ∃ text, statement = .unknown text := by
  rw [readVariable] at h
  dsimp only at h
  split at h
  · cases h
    exact .inr ⟨_, rfl⟩
  · split at h
    · cases h
      exact .inl ⟨_, rfl⟩
    · obtain ⟨_, -, h⟩ := exists_ok_of_bind h
      cases h
      exact .inl ⟨_, rfl⟩

end Readers

/-! ## Members -/

namespace Member

/-- How a member is read: without a head it is unknown, and with one it is a function when a
parenthesis follows the name, else a variable. -/
inductive Reads (line : Line) (rest : List Line) : Statement → Bool → List Line → Prop
  | unknown (hhead : head? (dropAttributes line) = none) :
      Reads line rest (.unknown (String.ofList (dropAttributes line))) true rest
  | function {head : Head} {parameters : Line} {statement : Statement} {left : List Line}
      (hhead : head? (dropAttributes line) = some head)
      (hparameters : trimStart head.rest = '(' :: parameters)
      (hread : readFunction head parameters rest = .ok (statement, left)) :
      Reads line rest statement false left
  | var {head : Head} {statement : Statement} {left : List Line}
      (hhead : head? (dropAttributes line) = some head)
      (hparameters : ∀ parameters, trimStart head.rest ≠ '(' :: parameters)
      (hread : readVariable (dropAttributes line) head rest = .ok (statement, left)) :
      Reads line rest statement false left

/-- A member is read in one of these ways. -/
theorem read_cases {line : Line} {rest left : List Line} {statement : Statement} {bare : Bool}
    (h : read line rest = .ok (statement, bare, left)) : Reads line rest statement bare left := by
  rw [read] at h
  dsimp only at h
  split at h
  · rename_i hhead
    cases h
    exact .unknown hhead
  · rename_i head hhead
    obtain ⟨⟨statement', left'⟩, hread, heq⟩ := exists_ok_of_map h
    cases heq
    split at hread
    · rename_i parameters hparameters
      exact .function hhead hparameters hread
    · rename_i hparameters
      exact .var hhead hparameters hread

/-- No definition of a type or a record begins with a line. -/
structure Declares (line : Line) : Prop where
  pointer : Alias.pointer? line = none
  definition : Alias.definition? line = none
  usingName : startsWith "using".toList line = false
  forward : Alias.forward? line = none
  record : Record.mayHaveBody line = true → Record.opening? line = none

end Member

namespace Token

variable {mode : Mode} {raw line : Line} {number : Int} {scopes : List Scope} {rest : List Line}
  {read : Read} {c : Cursor} {next : Advance}

/-! ## Declarations -/

/-- How a declaration is read. -/
inductive ReadsDeclaration (raw line : Line) (number : Int) (scopes : List Scope)
    (rest : List Line) : Read → Prop
  | pointer {head : Alias.PointerHead} {statement : Statement} {left : List Line}
      (hhead : Alias.pointer? line = some head)
      (hread : Alias.readPointer head rest = .ok (statement, left)) :
      ReadsDeclaration raw line number scopes rest { statement, scopes, rest := left }
  | record {opening : Record.Opening} {statement : Statement} {left : List Line}
      (hbody : Record.mayHaveBody line = true) (hopening : Record.opening? line = some opening)
      (hread : Record.read opening raw number rest = .ok (statement, left)) :
      ReadsDeclaration raw line number scopes rest { statement, scopes, rest := left }
  | definition {statement : Statement} (hstatement : Alias.definition? line = some statement) :
      ReadsDeclaration raw line number scopes rest { statement, scopes, rest }
  | usingName {statement : Statement} {left : List Line}
      (hread : Alias.readUsing line rest = .ok (statement, left)) :
      ReadsDeclaration raw line number scopes rest { statement, scopes, rest := left }
  | forward {statement : Statement} (hstatement : Alias.forward? line = some statement) :
      ReadsDeclaration raw line number scopes rest { statement, scopes, rest }
  | member {statement : Statement} {bare : Bool} {left : List Line}
      (hdeclares : Member.Declares line)
      (hread : Member.read line rest = .ok (statement, bare, left)) :
      ReadsDeclaration raw line number scopes rest {
        statement, scopes, rest := left
        remark := if bare then some (.unknownStatement statement.value.toList) else none }

/-- A declaration is read in one of these ways. -/
theorem readDeclaration_cases (h : readDeclaration raw line number scopes rest = .ok read) :
    ReadsDeclaration raw line number scopes rest read := by
  -- A record is looked for in two places: of a typedef before aliases, of the others at the end.
  have hrecord {opening : Record.Opening}
      (hopening : (if Record.mayHaveBody line then Record.opening? line else none) = some opening)
      (h : (Record.read opening raw number rest).map
        (fun r => ({ statement := r.1, scopes, rest := r.2 } : Read)) = .ok read) :
      ReadsDeclaration raw line number scopes rest read := by
    obtain ⟨_, hread, rfl⟩ := exists_ok_of_map h
    split at hopening
    · rename_i hbody
      exact .record hbody hopening hread
    · cases hopening
  rw [readDeclaration] at h
  dsimp only at h
  split at h
  · rename_i head hhead
    obtain ⟨_, hread, rfl⟩ := exists_ok_of_map h
    exact .pointer hhead hread
  · rename_i hpointer
    split at h
    · rename_i opening hopening
      exact hrecord (Option.filter_eq_some_iff.1 hopening).1 h
    · split at h
      · rename_i statement hstatement
        cases h
        exact .definition hstatement
      · rename_i hdefinition
        split at h
        · obtain ⟨_, hread, rfl⟩ := exists_ok_of_map h
          exact .usingName hread
        · rename_i husing
          split at h
          · rename_i statement hstatement
            cases h
            exact .forward hstatement
          · rename_i hforward
            split at h
            · rename_i opening hopening
              exact hrecord hopening h
            · rename_i hnone
              obtain ⟨⟨statement, bare, left⟩, hread, rfl⟩ := exists_ok_of_map h
              refine .member ⟨hpointer, hdefinition, Bool.eq_false_iff.2 husing, hforward,
                fun hbody => ?_⟩ hread
              rwa [if_pos hbody] at hnone

/-! ## Statements that are no comment and no directive -/

/-- How a statement that is no comment and no directive is read. -/
inductive ReadsCode (mode : Mode) (raw line : Line) (number : Int) (scopes : List Scope)
    (rest : List Line) : Read → Prop
  | enumerator {head : VariableHead} (hmode : mode.enumerators = true)
      (hread : Enumerator.read? line = some head) :
      ReadsCode mode raw line number scopes rest { statement := .var head, scopes, rest }
  | noEnumerator (hmode : mode.enumerators = true) (hread : Enumerator.read? line = none) :
      ReadsCode mode raw line number scopes rest
        { statement := .unknown (String.ofList line), scopes, rest }
  | passed {left : List Line} (hmode : mode.enumerators = false)
      (hpassed : startsWithAny mode.ignored line = true ∨ isAccessLabel line = true)
      (hread : Block.skipStatement line rest = .ok left) :
      ReadsCode mode raw line number scopes rest { statement := .other, scopes, rest := left }
  | linkage (hmode : mode.enumerators = false) (hlinkage : isLinkage line = true) :
      ReadsCode mode raw line number scopes rest {
        statement := .other
        scopes := if endsWith ['\x7b'] line then .linkage :: scopes else scopes
        rest }
  | scopeEnd (hmode : mode.enumerators = false) (hend : startsWith ['\x7d'] line = true) :
      ReadsCode mode raw line number scopes rest (readScopeEnd scopes rest)
  | brace (hmode : mode.enumerators = false) (hbrace : line = ['\x7b']) :
      ReadsCode mode raw line number scopes rest
        { statement := .other, scopes := .linkage :: scopes, rest }
  | namespaceBegin {name : List Char} (hmode : mode.enumerators = false)
      (hname : namespaceName? line = some name) :
      ReadsCode mode raw line number scopes rest
        { statement := .namespaceBegin (String.ofList name), scopes := .named :: scopes, rest }
  | template {text : Line} {list : Block.Enclosed} {left : List Line}
      (hmode : mode.enumerators = false) (hstart : templateStart? line = some text)
      (hlist : Block.enclosed '<' '>' 1 text rest = some (list, left)) :
      ReadsCode mode raw line number scopes rest {
        statement := .template (String.ofList (trim (joinLines list.inside)))
        scopes
        rest := left
        remark := if allBlank list.trailer then none else some .textAfterTemplate }
  | declaration {read : Read} (hmode : mode.enumerators = false)
      (hpassed : startsWithAny mode.ignored line = false) (hlabel : isAccessLabel line = false)
      (hlinkage : isLinkage line = false) (hend : startsWith ['\x7d'] line = false)
      (hbrace : line ≠ ['\x7b']) (hname : namespaceName? line = none)
      (hstart : templateStart? line = none)
      (hread : ReadsDeclaration raw line number scopes rest read) :
      ReadsCode mode raw line number scopes rest read

/-- Code is read in one of these ways. -/
theorem readCode_cases (h : readCode mode raw line number scopes rest = .ok read) :
    ReadsCode mode raw line number scopes rest read := by
  rw [readCode] at h
  split at h
  · rename_i hmode
    split at h
    · rename_i head hread
      cases h
      exact .enumerator hmode hread
    · rename_i hread
      cases h
      exact .noEnumerator hmode hread
  · rename_i hmode
    have hmode := Bool.eq_false_iff.2 hmode
    split at h
    · rename_i hpassed
      obtain ⟨left, hread, rfl⟩ := exists_ok_of_map h
      exact .passed hmode (Bool.or_eq_true_iff.1 hpassed) hread
    · rename_i hpassed
      obtain ⟨hpassed, hlabel⟩ := Bool.or_eq_false_iff.1 (Bool.eq_false_iff.2 hpassed)
      split at h
      · rename_i hlinkage
        cases h
        exact .linkage hmode hlinkage
      · rename_i hlinkage
        split at h
        · rename_i hend
          cases h
          exact .scopeEnd hmode hend
        · rename_i hend
          split at h
          · rename_i hbrace
            cases h
            exact .brace hmode hbrace
          · rename_i hbrace
            split at h
            · rename_i name hname
              cases h
              exact .namespaceBegin hmode hname
            · rename_i hname
              split at h
              · rename_i text hstart
                rw [readTemplate] at h
                split at h
                · rename_i list left hlist
                  cases h
                  exact .template hmode hstart hlist
                · cases h
              · rename_i hstart
                exact .declaration hmode hpassed hlabel (Bool.eq_false_iff.2 hlinkage)
                  (Bool.eq_false_iff.2 hend) hbrace hname hstart (readDeclaration_cases h)

/-! ## Statements -/

/-- How a statement is read. -/
inductive ReadsStatement (mode : Mode) (raw : Line) (number : Int) (scopes : List Scope)
    (rest : List Line) : Read → Prop
  | marker (hmarker : Comment.isForwardMarker (trim raw) = true) :
      ReadsStatement mode raw number scopes rest { statement := .doc "", scopes, rest }
  | region (hregion : Directive.isImplementation (trim raw) = true) :
      ReadsStatement mode raw number scopes rest { statement := .other, scopes := [], rest := [] }
  | lineComment (hline : startsWith "//".toList (trim raw) = true) :
      ReadsStatement mode raw number scopes rest {
        statement := (Comment.readLines (trim raw) rest).1
        scopes
        rest := (Comment.readLines (trim raw) rest).2 }
  | blockComment {statement : Statement} {left : List Line}
      (hblock : startsWith "/*".toList (trim raw) = true)
      (hread : Comment.readBlock (trim raw) rest = .ok (statement, left)) :
      ReadsStatement mode raw number scopes rest { statement, scopes, rest := left }
  | directive (hdirective : startsWith ['#'] (trim raw) = true) :
      ReadsStatement mode raw number scopes rest {
        statement := (Directive.read (trim raw) rest).1
        scopes
        rest := (Directive.read (trim raw) rest).2 }
  | code {read : Read} (hline : startsWith "//".toList (trim raw) = false)
      (hblock : startsWith "/*".toList (trim raw) = false)
      (hdirective : startsWith ['#'] (trim raw) = false)
      (hread : ReadsCode mode raw (trim raw) number scopes rest read) :
      ReadsStatement mode raw number scopes rest read

/-- A statement is read in one of these ways. -/
theorem readStatement_cases (h : readStatement mode raw number scopes rest = .ok read) :
    ReadsStatement mode raw number scopes rest read := by
  rw [readStatement] at h
  dsimp only at h
  split at h
  · rename_i hmarker
    cases h
    exact .marker hmarker
  · split at h
    · rename_i hregion
      cases h
      exact .region hregion
    · split at h
      · rename_i hline
        cases h
        exact .lineComment hline
      · rename_i hline
        split at h
        · rename_i hblock
          obtain ⟨_, hread, rfl⟩ := exists_ok_of_map h
          exact .blockComment hblock hread
        · rename_i hblock
          split at h
          · rename_i hdirective
            cases h
            exact .directive hdirective
          · rename_i hdirective
            exact .code (Bool.eq_false_iff.2 hline) (Bool.eq_false_iff.2 hblock)
              (Bool.eq_false_iff.2 hdirective) (readCode_cases h)

/-- A line that begins with no mark of a comment or a directive is read as code. -/
theorem readStatement_eq_readCode (hline : startsWith "//".toList (trim raw) = false)
    (hblock : startsWith "/*".toList (trim raw) = false)
    (hdirective : startsWith ['#'] (trim raw) = false) :
    readStatement mode raw number scopes rest =
      readCode mode raw (trim raw) number scopes rest := by
  have hmarker : Comment.isForwardMarker (trim raw) = false := by
    simp only [Comment.isForwardMarker, after?_eq_none_iff.2 hline]
  have hpragma : Directive.isImplementation (trim raw) = false := by
    simp only [Directive.isImplementation, Directive.keyword?, after?_eq_none_iff.2 hdirective]
    rfl
  simp only [readStatement, hmarker, hpragma, hline, hblock, hdirective, Bool.false_eq_true,
    if_false]

/-! ## Lines of members -/

/-- No other statement begins with a line: it is one of a member. -/
structure IsMember (mode : Mode) (line : Line) : Prop where
  enumerators : mode.enumerators = false
  lineComment : startsWith "//".toList line = false
  blockComment : startsWith "/*".toList line = false
  directive : startsWith ['#'] line = false
  passed : startsWithAny mode.ignored line = false
  label : isAccessLabel line = false
  linkage : isLinkage line = false
  scopeEnd : startsWith ['\x7d'] line = false
  brace : line ≠ ['\x7b']
  namespaceName : namespaceName? line = none
  template : templateStart? line = none
  declares : Member.Declares line

/-- A member as a statement of the stream. -/
def readMember (line : Line) (scopes : List Scope) (rest : List Line) : Except Fault Read :=
  (Member.read line rest).map fun (statement, bare, rest) => {
    statement, scopes, rest
    remark := if bare then some (.unknownStatement statement.value.toList) else none }

/-- A line that is no statement of another kind is read as a member. -/
theorem readDeclaration_of_declares (h : Member.Declares line) :
    readDeclaration raw line number scopes rest = readMember line scopes rest := by
  have hrecord : (if Record.mayHaveBody line then Record.opening? line else none) = none := by
    split
    · rename_i hbody
      exact h.record hbody
    · rfl
  simp only [readDeclaration, readMember, h.pointer, h.definition, h.usingName, h.forward, hrecord,
    Option.filter_none, Bool.false_eq_true, if_false]

/-- The line of a member is read as one. -/
theorem readStatement_of_isMember (h : IsMember mode (trim raw)) :
    readStatement mode raw number scopes rest = readMember (trim raw) scopes rest := by
  rw [readStatement_eq_readCode h.lineComment h.blockComment h.directive]
  simp only [readCode, h.enumerators, h.passed, h.label, h.linkage, h.scopeEnd, h.brace,
    h.namespaceName, h.template, readDeclaration_of_declares h.declares, Bool.or_self,
    Bool.false_eq_true, if_false]

/-! ## Calls for a token -/

/-- How a call for the next token gives one: blank lines are left at the end of the text, or nothing
is and no scope is open, or a statement begins at a visible line. -/
inductive Steps (mode : Mode) (c : Cursor) : Advance → Prop
  | blank (hskip : skipBlankLines c.rest = []) (hrest : c.rest ≠ []) :
      Steps mode c ⟨⟨.other, c.line, (c.moveTo []).line, 0⟩, c.moveTo [], []⟩
  | eof (hrest : c.rest = []) (hscopes : c.scopes = []) :
      Steps mode c ⟨⟨.eof, c.line, c.line, 0⟩, c, []⟩
  | statement {raw : Line} {rest : List Line} {read : Read}
      (hskip : skipBlankLines c.rest = raw :: rest)
      (hread : readStatement mode raw (c.moveTo (raw :: rest)).line c.scopes rest = .ok read) :
      Steps mode c (advance c (indentation raw) read)

/-- A step that gives a token is one of these. -/
theorem step_cases (h : step mode c = .ok next) : Steps mode c next := by
  rw [step] at h
  split at h
  · rename_i hskip
    dsimp only at h
    split at h
    · rename_i hrest
      cases h
      exact .blank hskip hrest
    · rename_i hrest
      split at h
      · cases h
      · rename_i hscopes
        cases h
        exact .eof (Decidable.not_not.1 hrest) hscopes
  · rename_i raw rest hskip
    dsimp only at h
    split at h
    · rename_i read hread
      cases h
      exact .statement hskip hread
    · cases h

/-- How a call for the next token fails: a scope is open at the end of the text, or the statement at
the next visible line is malformed. -/
inductive StepFails (mode : Mode) (c : Cursor) : MalformedSource → Cursor → Prop
  | scope {scope : Scope} {scopes : List Scope} (hrest : c.rest = [])
      (hscopes : c.scopes = scope :: scopes) : StepFails mode c ⟨.scope scope, c.lastLine⟩ c
  | statement {raw : Line} {rest : List Line} {fault : Fault}
      (hskip : skipBlankLines c.rest = raw :: rest)
      (hread : readStatement mode raw (c.moveTo (raw :: rest)).line c.scopes rest = .error fault) :
      StepFails mode c ⟨fault.cause, c.lastLine⟩ (c.moveTo fault.rest)

/-- A step that fails is one of these. -/
theorem step_error_cases {e : MalformedSource} {c' : Cursor} (h : step mode c = .error (e, c')) :
    StepFails mode c e c' := by
  rw [step] at h
  split at h
  · dsimp only at h
    split at h
    · cases h
    · rename_i hrest
      split at h
      · rename_i scope scopes hscopes
        cases h
        exact .scope (Decidable.not_not.1 hrest) hscopes
      · cases h
  · rename_i raw rest hskip
    dsimp only at h
    split at h
    · cases h
    · rename_i fault hread
      cases h
      exact .statement hskip hread

/-- A stream gives tokens when its call does, and those behind that token are of a stream of its
own, unless it is the eof token. -/
theorem outcome_streamFrom_iff {fuel : Nat} {tokens : List Token} :
    (streamFrom mode (fuel + 1) c).outcome = .ok tokens ↔
      ∃ next, step mode c = .ok next ∧
        (next.token.statement = .eof ∧ tokens = [next.token] ∨
          next.token.statement ≠ .eof ∧ ∃ later,
            (streamFrom mode fuel next.cursor).outcome = .ok later ∧
              tokens = next.token :: later) := by
  rw [streamFrom]
  cases step mode c with
  | error e => exact iff_of_false nofun fun ⟨_, hstep, _⟩ => nomatch hstep
  | ok next =>
    simp only [Except.ok.injEq, exists_eq_left']
    split
    · rename_i heof
      simp [heof, eq_comm]
    · rename_i hne
      constructor
      · intro h
        obtain ⟨later, hlater, heq⟩ := exists_ok_of_map h
        exact .inr ⟨hne, later, hlater, heq.symm⟩
      · rintro (⟨heof, -⟩ | ⟨-, later, hlater, rfl⟩)
        · exact absurd heof hne
        · rw [hlater]
          rfl

end Token

end HeaderApi
