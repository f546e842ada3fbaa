import HeaderApi.Proofs.Tiling

/-!
# How statements are read

Definitions, enumerators, records and members each come from one reader.  So the token of a
definition, a record, a function or a variable tells how its line was read.
-/

namespace HeaderApi

open Text

/-! ## Readers of other statements -/

/-- Whether a statement is a definition, a record, a function or a variable. -/
def Statement.isMain : Statement → Bool
  | .definition _ _ _ _ | .record _ | .function _ | .var _ => true
  | _ => false

/-- The result of a reader, if it has one, is another statement. -/
def Minor (x : Except Fault (Statement × List Line)) : Prop :=
  ∀ r, x = .ok r → r.1.isMain = false

section Readers

variable (line : Line) (rest : List Line)

theorem Comment.readLines_minor : (readLines line rest).1.isMain = false := by
  obtain ⟨text, heq⟩ | heq := readLines_cases line rest
  · rw [heq]
    rfl
  · rw [heq]
    rfl

theorem Comment.readBlock_minor : Minor (readBlock line rest) := by
  rintro ⟨statement, left⟩ h
  obtain ⟨text, rfl⟩ | rfl := readBlock_cases h
  · rfl
  · rfl

theorem Alias.readPointer_minor (head : PointerHead) : Minor (readPointer head rest) := by
  rintro ⟨statement, left⟩ h
  obtain ⟨name, type, parameters, rfl⟩ := readPointer_cases h
  rfl

theorem Alias.readUsing_minor : Minor (readUsing line rest) := by
  rintro ⟨statement, left⟩ h
  obtain ⟨name, type, rfl⟩ | ⟨text, rfl⟩ := readUsing_cases h
  · rfl
  · rfl

end Readers

/-! ## The readers of these statements -/

/-- How a definition, a record, a function or a variable is read from its first line and the lines
after it.  A variable is an enumerator or a member. -/
inductive Statement.Origin (mode : Token.Mode) (raw : Line) (number : Int) (rest : List Line) :
    Statement → List Line → Prop
  | definition {name : String} {parameters doc value : Option String} {left : List Line}
      (hread : Directive.read (trim raw) rest = (.definition name parameters doc value, left)) :
      Origin mode raw number rest (.definition name parameters doc value) left
  | enumerator {head : VariableHead} (hmode : mode.enumerators = true)
      (hread : Enumerator.read? (trim raw) = some head) :
      Origin mode raw number rest (.var head) rest
  | record {opening : Record.Opening} {head : RecordHead} {left : List Line}
      (hopening : Record.opening? (trim raw) = some opening)
      (hread : Record.read opening raw number rest = .ok (.record head, left)) :
      Origin mode raw number rest (.record head) left
  | function {member : Member.Head} {parameters : Line} {head : FunctionHead} {left : List Line}
      (hmode : mode.enumerators = false)
      (hmember : Member.head? (Member.dropAttributes (trim raw)) = some member)
      (hparameters : trimStart member.rest = '(' :: parameters)
      (hread : Member.readFunction member parameters rest = .ok (.function head, left)) :
      Origin mode raw number rest (.function head) left
  | member {member : Member.Head} {head : VariableHead} {left : List Line}
      (hmode : mode.enumerators = false)
      (hmember : Member.head? (Member.dropAttributes (trim raw)) = some member)
      (hread : Member.readVariable (Member.dropAttributes (trim raw)) member rest =
        .ok (.var head, left)) :
      Origin mode raw number rest (.var head) left

namespace Token

variable {mode : Mode} {raw : Line} {number : Int} {scopes : List Scope} {rest left : List Line}
  {read : Read} {c : Cursor} {next : Advance} {statement : Statement}

/-- A directive that is one of the four is a definition, read from its lines. -/
theorem directive_origin (h : Directive.read (trim raw) rest = (statement, left)) :
    statement.isMain = false ∨ statement.Origin mode raw number rest left := by
  obtain ⟨text, hdirective⟩ | ⟨_, _, _, _, hdefinition⟩ := Directive.read_cases (trim raw) rest
  · rw [h] at hdirective
    refine .inl ?_
    rw [show statement = .directive text from hdirective]
    rfl
  · rw [h] at hdefinition
    obtain rfl : statement = _ := hdefinition
    exact .inr (.definition h)

/-- A member is a function when a parenthesis follows its name, and a variable when none does. -/
theorem member_origin {bare : Bool} (hmode : mode.enumerators = false)
    (h : Member.read (trim raw) rest = .ok (statement, bare, left)) :
    statement.isMain = false ∨ statement.Origin mode raw number rest left := by
  cases Member.read_cases h with
  | unknown => exact .inl rfl
  | function hhead hparameters hread =>
    obtain ⟨head, rfl⟩ := Member.readFunction_cases hread
    exact .inr (.function hmode hhead hparameters hread)
  | var hhead _ hread =>
    obtain ⟨head, rfl⟩ | ⟨text, rfl⟩ := Member.readVariable_cases hread
    · exact .inr (.member hmode hhead hread)
    · exact .inl rfl

/-- A declaration that is one of the four is read in its own way. -/
theorem ReadsDeclaration.origin (hmode : mode.enumerators = false)
    (h : ReadsDeclaration raw (trim raw) number scopes rest read) :
    read.statement.isMain = false ∨ read.statement.Origin mode raw number rest read.rest := by
  cases h with
  | pointer _ hread => exact .inl (Alias.readPointer_minor _ _ _ hread)
  | record _ hopening hread =>
    obtain ⟨head, rfl⟩ | ⟨text, rfl⟩ := Record.read_cases hread
    · exact .inr (.record hopening hread)
    · exact .inl rfl
  | definition hstatement =>
    obtain ⟨name, type, rfl⟩ := Alias.definition?_cases hstatement
    exact .inl rfl
  | usingName hread => exact .inl (Alias.readUsing_minor _ _ _ hread)
  | forward hstatement =>
    obtain ⟨name, rfl⟩ := Alias.forward?_cases hstatement
    exact .inl rfl
  | member _ hread => exact member_origin hmode hread

/-- The end of a scope is another statement than these four. -/
theorem readScopeEnd_minor (scopes : List Scope) (rest : List Line) :
    (readScopeEnd scopes rest).statement.isMain = false := by
  unfold readScopeEnd
  split
  · rfl
  · rfl
  · rfl

/-- A statement that is one of the four is read in its own way. -/
theorem readStatement_origin (h : readStatement mode raw number scopes rest = .ok read) :
    read.statement.isMain = false ∨ read.statement.Origin mode raw number rest read.rest := by
  cases readStatement_cases h with
  | marker | region => exact .inl rfl
  | lineComment => exact .inl (Comment.readLines_minor _ _)
  | blockComment _ hread => exact .inl (Comment.readBlock_minor _ _ _ hread)
  | directive => exact directive_origin rfl
  | code _ _ _ hcode =>
    cases hcode with
    | enumerator hmode hread => exact .inr (.enumerator hmode hread)
    | scopeEnd => exact .inl (readScopeEnd_minor scopes rest)
    | declaration hmode _ _ _ _ _ _ _ hread => exact hread.origin hmode
    | noEnumerator | passed | linkage | brace | namespaceBegin | template => exact .inl rfl

/-! ## Steps -/

/-- A token stops behind the given lines, apart from the blank lines that follow them. -/
structure Advance.StopsAt (c : Cursor) (left : List Line) (next : Advance) : Prop where
  rest_eq : next.cursor.rest = skipBlankLines left
  endLine_eq : next.token.endLine = (c.moveTo (skipBlankLines left)).line

/-- Each token of a run is that of a step. -/
theorem Run.exists_step {tokens : List Token} (h : Run mode c tokens) {token : Token}
    (htoken : token ∈ tokens) : ∃ c next, step mode c = .ok next ∧ next.token = token := by
  induction h with
  | eof hstep =>
    cases List.mem_singleton.1 htoken
    exact ⟨_, _, hstep, rfl⟩
  | cons hstep _ _ ih =>
    rcases List.mem_cons.1 htoken with rfl | hlater
    · exact ⟨_, _, hstep, rfl⟩
    · exact ih hlater

/-- **Where tokens come from.**  The token of a definition, a record, a function or a variable
begins at a visible line, from which one of their readers reads it. -/
theorem exists_origin_of_step (h : step mode c = .ok next)
    (hmain : next.token.statement.isMain = true) :
    ∃ raw rest left, skipBlankLines c.rest = raw :: rest ∧
      next.token.statement.Origin mode raw (c.moveTo (raw :: rest)).line rest left ∧
      next.StopsAt c left := by
  cases step_cases h with
  | blank | eof => cases hmain
  | statement hskip hread =>
    rcases readStatement_origin hread with hminor | horigin
    · exact absurd hmain (Bool.eq_false_iff.1 hminor)
    · exact ⟨_, _, _, hskip, horigin, rfl, rfl⟩

end Token

end HeaderApi
