import HeaderApi.Proofs.Tiling

/-!
# Open scopes

A call for the next token opens or closes at most one scope, and its token marks a namespace exactly
when that scope is a namespace.  So the open namespaces are those whose beginning was read and whose
end was not, until a region marker closes all scopes at once.
-/

namespace HeaderApi

open Text

/-! ## Marks of namespaces -/

/-- Whether a statement opens a namespace. -/
def Statement.opensNamespace : Statement → Bool
  | .namespaceBegin _ => true
  | _ => false

/-- Whether a statement closes a namespace. -/
def Statement.closesNamespace : Statement → Bool
  | .namespaceEnd => true
  | _ => false

/-- Whether a statement opens or closes a namespace. -/
def Statement.marksNamespace (s : Statement) : Bool := s.opensNamespace || s.closesNamespace

theorem Statement.opensNamespace_of_marks {s : Statement} (h : s.marksNamespace = false) :
    s.opensNamespace = false := (Bool.or_eq_false_iff.1 h).1

theorem Statement.closesNamespace_of_marks {s : Statement} (h : s.marksNamespace = false) :
    s.closesNamespace = false := (Bool.or_eq_false_iff.1 h).2

/-! ## Readers of other statements -/

/-- The result of a reader, if it has one, is a statement that marks no namespace. -/
def PassesNamespaces (x : Except Fault (Statement × List Line)) : Prop :=
  ∀ r, x = .ok r → r.1.marksNamespace = false

section Readers

variable (line raw : Line) (number : Int) (rest : List Line)

/-- A run of line comments marks no namespace. -/
theorem Comment.readLines_marks : (readLines line rest).1.marksNamespace = false := by
  obtain ⟨text, heq⟩ | heq := readLines_cases line rest
  · rw [heq]
    rfl
  · rw [heq]
    rfl

/-- A block comment marks no namespace. -/
theorem Comment.readBlock_passes : PassesNamespaces (readBlock line rest) := by
  rintro ⟨statement, left⟩ h
  obtain ⟨text, rfl⟩ | rfl := readBlock_cases h
  · rfl
  · rfl

/-- A directive marks no namespace. -/
theorem Directive.read_marks : (read line rest).1.marksNamespace = false := by
  obtain ⟨text, heq⟩ | ⟨name, parameters, doc, value, heq⟩ := read_cases line rest
  · rw [heq]
    rfl
  · rw [heq]
    rfl

/-- A function pointer marks no namespace. -/
theorem Alias.readPointer_passes (head : PointerHead) :
    PassesNamespaces (readPointer head rest) := by
  rintro ⟨statement, left⟩ h
  obtain ⟨name, type, parameters, rfl⟩ := readPointer_cases h
  rfl

/-- An alias marks no namespace. -/
theorem Alias.readUsing_passes : PassesNamespaces (readUsing line rest) := by
  rintro ⟨statement, left⟩ h
  obtain ⟨name, type, rfl⟩ | ⟨text, rfl⟩ := readUsing_cases h
  · rfl
  · rfl

/-- A record marks no namespace. -/
theorem Record.read_passes (opening : Opening) :
    PassesNamespaces (read opening raw number rest) := by
  rintro ⟨statement, left⟩ h
  obtain ⟨head, rfl⟩ | ⟨text, rfl⟩ := read_cases h
  · rfl
  · rfl

/-- A member marks no namespace. -/
theorem Member.read_marks {statement : Statement} {bare : Bool} {left : List Line}
    (h : Member.read line rest = .ok (statement, bare, left)) :
    statement.marksNamespace = false := by
  cases read_cases h with
  | unknown => rfl
  | function _ _ hread =>
    obtain ⟨head, rfl⟩ := readFunction_cases hread
    rfl
  | var _ _ hread =>
    obtain ⟨head, rfl⟩ | ⟨text, rfl⟩ := readVariable_cases hread
    · rfl
    · rfl

end Readers

/-! ## One statement -/

namespace Token

/-- What a statement does to the open scopes: it opens or closes a namespace, opens or closes
another scope, or leaves them as they are. -/
inductive Moves (mode : Mode) : List Scope → Statement → List Scope → Prop
  | opens (hmode : mode.enumerators = false) (name : String) (scopes : List Scope) :
      Moves mode scopes (.namespaceBegin name) (.named :: scopes)
  | closes (hmode : mode.enumerators = false) (scopes : List Scope) :
      Moves mode (.named :: scopes) .namespaceEnd scopes
  | enters {s : Statement} (hs : s.marksNamespace = false) (scopes : List Scope) :
      Moves mode scopes s (.linkage :: scopes)
  | leaves {s : Statement} (hs : s.marksNamespace = false) (scopes : List Scope) :
      Moves mode (.linkage :: scopes) s scopes
  | stays {s : Statement} (hs : s.marksNamespace = false) (scopes : List Scope) :
      Moves mode scopes s scopes

section Moves

variable {mode : Mode} {before after : List Scope} {s : Statement}

/-- The open namespaces change by those that the statement opens and closes. -/
theorem Moves.count_named (h : Moves mode before s after) :
    after.count .named + (if s.closesNamespace then 1 else 0) =
      before.count .named + if s.opensNamespace then 1 else 0 := by
  cases h with
  | opens hmode name => simp [Statement.opensNamespace, Statement.closesNamespace]
  | closes hmode => simp [Statement.opensNamespace, Statement.closesNamespace]
  | enters hs | leaves hs | stays hs =>
    simp [Statement.opensNamespace_of_marks hs, Statement.closesNamespace_of_marks hs]

/-- An enumerator marks no namespace. -/
theorem Moves.marks_of_enumerators (h : Moves mode before s after)
    (hmode : mode.enumerators = true) : s.marksNamespace = false := by
  cases h with
  | opens hnot | closes hnot =>
    rw [hmode] at hnot
    cases hnot
  | enters hs | leaves hs | stays hs => exact hs

end Moves

variable {mode : Mode} {raw line : Line} {number : Int} {scopes : List Scope} {rest : List Line}
  {read : Read}

/-- The end of a scope closes the innermost one. -/
theorem readScopeEnd_moves (hmode : mode.enumerators = false) (scopes : List Scope)
    (rest : List Line) :
    Moves mode scopes (readScopeEnd scopes rest).statement (readScopeEnd scopes rest).scopes := by
  match scopes with
  | [] => exact .stays rfl []
  | .named :: scopes => exact .closes hmode scopes
  | .linkage :: scopes => exact .leaves rfl scopes

/-- A declaration opens a scope or leaves the scopes as they are. -/
theorem ReadsDeclaration.moves (h : ReadsDeclaration raw line number scopes rest read) :
    Moves mode scopes read.statement read.scopes := by
  cases h with
  | pointer _ hread => exact .stays (Alias.readPointer_passes _ _ _ hread) scopes
  | record _ _ hread => exact .stays (Record.read_passes _ _ _ _ _ hread) scopes
  | definition hstatement =>
    obtain ⟨name, type, rfl⟩ := Alias.definition?_cases hstatement
    exact .stays rfl scopes
  | usingName hread => exact .stays (Alias.readUsing_passes _ _ _ hread) scopes
  | forward hstatement =>
    obtain ⟨name, rfl⟩ := Alias.forward?_cases hstatement
    exact .stays rfl scopes
  | member _ hread => exact .stays (Member.read_marks _ _ hread) scopes

/-- Code opens or closes one scope at most. -/
theorem ReadsCode.moves (h : ReadsCode mode raw line number scopes rest read) :
    Moves mode scopes read.statement read.scopes := by
  cases h with
  | linkage =>
    dsimp only
    split
    · exact .enters rfl scopes
    · exact .stays rfl scopes
  | scopeEnd hmode => exact readScopeEnd_moves hmode scopes rest
  | brace => exact .enters rfl scopes
  | namespaceBegin hmode => exact .opens hmode _ scopes
  | declaration _ _ _ _ _ _ _ _ hread => exact hread.moves
  | enumerator | noEnumerator | passed | template => exact .stays rfl scopes

/-- A statement moves one scope at most, unless it is a region marker, which marks no namespace. -/
theorem readStatement_moves (h : readStatement mode raw number scopes rest = .ok read) :
    (Directive.isImplementation (trim raw) = true ∧ read.statement.marksNamespace = false) ∨
      Moves mode scopes read.statement read.scopes := by
  cases readStatement_cases h with
  | marker => exact .inr (.stays rfl scopes)
  | region hregion => exact .inl ⟨hregion, rfl⟩
  | lineComment => exact .inr (.stays (Comment.readLines_marks _ rest) scopes)
  | blockComment _ hread => exact .inr (.stays (Comment.readBlock_passes _ _ _ hread) scopes)
  | directive => exact .inr (.stays (Directive.read_marks _ rest) scopes)
  | code _ _ _ hcode => exact .inr hcode.moves

/-! ## One call -/

/-- Whether the next statement is a region marker. -/
def Cursor.atRegion (c : Cursor) : Bool :=
  match skipBlankLines c.rest with
  | raw :: _ => Directive.isImplementation (trim raw)
  | [] => false

variable {c c' : Cursor} {next : Advance}

/-- A token moves one scope at most, unless it is a region marker, which marks no namespace. -/
theorem step_moves (h : step mode c = .ok next) :
    (c.atRegion = true ∧ next.token.statement.marksNamespace = false) ∨
      Moves mode c.scopes next.token.statement next.cursor.scopes := by
  cases step_cases h with
  | blank | eof => exact .inr (.stays rfl c.scopes)
  | statement hskip hread =>
    rw [Cursor.atRegion, hskip]
    exact readStatement_moves hread

/-- A call that fails leaves the open scopes as they are. -/
theorem scopes_of_step_error {e : MalformedSource} (h : step mode c = .error (e, c')) :
    c'.scopes = c.scopes := by
  cases step_error_cases h with
  | scope => rfl
  | statement => rfl

/-- The eof token is only given when no scope is open. -/
theorem scopes_of_eof (h : step mode c = .ok next) (hends : next.Ends c) :
    next.cursor.scopes = [] := by
  cases step_cases h with
  | blank _ hrest => exact absurd hends.1 hrest
  | eof _ hscopes => exact hscopes
  | statement hskip =>
    rw [hends.1] at hskip
    cases hskip

/-! ## Runs of calls -/

/-- Calls for tokens one after the other, from one cursor to another, with the tokens that they
give.  A call may fail and be followed by others; the flag tells whether one of them was at a region
marker. -/
inductive Calls (mode : Mode) : Cursor → Bool → List Token → Cursor → Prop
  | nil (c : Cursor) : Calls mode c false [] c
  | token {c c' : Cursor} {region : Bool} {tokens : List Token} {next : Advance}
      (hstep : step mode c = .ok next) (hlater : Calls mode next.cursor region tokens c') :
      Calls mode c (c.atRegion || region) (next.token :: tokens) c'
  | fault {c left c' : Cursor} {region : Bool} {tokens : List Token} {e : MalformedSource}
      (hstep : step mode c = .error (e, left)) (hlater : Calls mode left region tokens c') :
      Calls mode c (c.atRegion || region) tokens c'

variable {region : Bool} {tokens : List Token}

/-- The namespaces that are open after some calls, and those that were closed, are those that were
open before and those that were opened. -/
theorem Calls.count_named (h : Calls mode c region tokens c') (hregion : region = false) :
    tokens.countP (·.statement.closesNamespace) + c'.scopes.count .named =
      tokens.countP (·.statement.opensNamespace) + c.scopes.count .named := by
  induction h with
  | nil c => rfl
  | @token c c' region tokens next hstep hlater ih =>
    obtain ⟨hat, hregion⟩ := Bool.or_eq_false_iff.1 hregion
    have hlater := ih hregion
    rw [List.countP_cons, List.countP_cons]
    rcases step_moves hstep with ⟨hmarker, -⟩ | hmoves
    · rw [hat] at hmarker
      cases hmarker
    · have hnext := hmoves.count_named
      omega
  | @fault c left c' region tokens e hstep hlater ih =>
    rw [← scopes_of_step_error hstep]
    exact ih (Bool.or_eq_false_iff.1 hregion).2

/-- Enumerators mark no namespaces. -/
theorem Calls.marks_of_enumerators (h : Calls mode c region tokens c')
    (hmode : mode.enumerators = true) :
    ∀ token ∈ tokens, token.statement.marksNamespace = false := by
  induction h with
  | nil c => exact nofun
  | @token c c' region tokens next hstep hlater ih =>
    refine List.forall_mem_cons.2 ⟨?_, ih⟩
    rcases step_moves hstep with ⟨-, hmarks⟩ | hmoves
    · exact hmarks
    · exact hmoves.marks_of_enumerators hmode
  | fault hstep hlater ih => exact ih

/-- A run that gives an eof token ends with no scope open. -/
theorem Run.exists_calls (h : Run mode c tokens) :
    ∃ region c', Calls mode c region tokens c' ∧ c'.scopes = [] := by
  induction h with
  | @eof c next hstep hends =>
    exact ⟨_, next.cursor, .token hstep (.nil next.cursor), scopes_of_eof hstep hends⟩
  | cons hstep htakes hlater ih =>
    obtain ⟨region, c', hcalls, hscopes⟩ := ih
    exact ⟨_, c', .token hstep hcalls, hscopes⟩

/-- **Namespaces nest.**  After any calls for tokens, none of them at a region marker, the tokens
that open namespaces outnumber those that close them by the namespaces that are open.  A stream
that gives its tokens has no open scope at its end; unless it went through a region marker, as many
of its tokens open namespaces as close them.  Among enumerators no token does either. -/
theorem calls_namespaces (mode : Mode) (first : Int) (lines : List Line) :
    (∀ tokens c, Calls mode (.start first lines) false tokens c →
      tokens.countP (·.statement.opensNamespace) =
        tokens.countP (·.statement.closesNamespace) + c.scopes.count .named) ∧
    (∀ tokens, (stream mode first lines).outcome = .ok tokens →
      ∃ region c, Calls mode (.start first lines) region tokens c ∧ c.scopes = [] ∧
        (region = true ∨ tokens.countP (·.statement.opensNamespace) =
          tokens.countP (·.statement.closesNamespace))) ∧
    (mode.enumerators = true → ∀ region tokens c,
      Calls mode (.start first lines) region tokens c → ∀ token ∈ tokens,
        token.statement.opensNamespace = false ∧ token.statement.closesNamespace = false) := by
  have hcount : ∀ tokens c, Calls mode (.start first lines) false tokens c →
      tokens.countP (·.statement.opensNamespace) =
        tokens.countP (·.statement.closesNamespace) + c.scopes.count .named := by
    intro tokens c hcalls
    exact (hcalls.count_named rfl).symm
  refine ⟨hcount, fun tokens htokens => ?_, fun hmode region tokens c hcalls token htoken => ?_⟩
  · obtain ⟨region, c, hcalls, hscopes⟩ := (run_of_streamFrom htokens).exists_calls
    refine ⟨region, c, hcalls, hscopes, ?_⟩
    cases region with
    | true => exact .inl rfl
    | false =>
      have hbalance := hcount tokens c hcalls
      rw [hscopes] at hbalance
      exact .inr hbalance
  · have hmarks := hcalls.marks_of_enumerators hmode token htoken
    exact ⟨Statement.opensNamespace_of_marks hmarks, Statement.closesNamespace_of_marks hmarks⟩

/-- A namespace with a linkage block inside, and a closing brace too many. -/
def linkedLines : List Line :=
  ["namespace A \x7b", "extern \"C\" \x7b", "int f();", "\x7d", "\x7d", "\x7d", "namespace B \x7b",
    "\x7d"].map String.toList

/-- A linkage in a namespace, with an end for each of them. -/
theorem calls_namespaces_linked :
    (∃ tokens c, Calls {} (.start 1 linkedLines) false tokens c ∧ c.scopes = [.linkage, .named] ∧
      tokens.countP (·.statement.opensNamespace) =
        tokens.countP (·.statement.closesNamespace) + c.scopes.count .named) ∧
    ∃ tokens, (stream {} 1 linkedLines).outcome = .ok tokens ∧
      tokens.map (·.statement.label) =
        ["namespace", "other", "function", "other", "end", "other", "namespace", "end", "eof"] ∧
      ∃ region c, Calls {} (.start 1 linkedLines) region tokens c ∧ c.scopes = [] ∧
        (region = true ∨ tokens.countP (·.statement.opensNamespace) =
          tokens.countP (·.statement.closesNamespace)) := by
  obtain ⟨hcount, hstream, -⟩ := calls_namespaces {} 1 linkedLines
  have hcalls : ∃ tokens c, Calls {} (.start 1 linkedLines) false tokens c ∧
      c.scopes = [.linkage, .named] :=
    ⟨_, _, @Calls.token _ _ _ false _ _ rfl (@Calls.token _ _ _ false _ _ rfl (.nil _)), rfl⟩
  have hok : ∃ tokens, (stream {} 1 linkedLines).outcome = .ok tokens ∧
      tokens.map (·.statement.label) =
        ["namespace", "other", "function", "other", "end", "other", "namespace", "end", "eof"] :=
    ⟨_, rfl, rfl⟩
  obtain ⟨before, c, hbefore, hscopes⟩ := hcalls
  obtain ⟨tokens, htokens, hlabels⟩ := hok
  exact ⟨⟨before, c, hbefore, hscopes, hcount before c hbefore⟩, tokens, htokens, hlabels,
    hstream tokens htokens⟩

end Token

end HeaderApi
