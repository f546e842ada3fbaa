import HeaderApi.Proofs.EntryLines

/-!
# What grouping tokens goes through

The builder takes token by token: it ends, puts a doc comment or a template aside, builds the entry
of a declaration, or passes over a statement.  A run that gives a result went through such steps,
and it built one entry for each declaration before the first end.
-/

namespace HeaderApi

/-! ## Kinds of statements -/

/-- Whether a statement ends the entries of a file: the end of the text, or of a namespace. -/
def Statement.isEnd : Statement → Bool
  | .eof | .namespaceEnd => true
  | _ => false

/-- Whether a statement is passed over: it ends nothing, declares nothing, and says nothing about a
declaration. -/
def Statement.isPassed : Statement → Bool
  | .comment | .other | .directive _ | .namespaceBegin _ | .unknown _ => true
  | _ => false

/-- The tokens before the first end. -/
def Token.beforeEnd (tokens : List Token) : List Token :=
  tokens.takeWhile fun token => !token.statement.isEnd

namespace Header

/-- Whether a token declares something. -/
def declares (token : Token) : Bool := (signature? token.statement).isSome

/-- The sorts of statements: an end, a doc, a template, a declaration or what is passed over. -/
theorem statement_cases (s : Statement) : s.isEnd = true ∨ (∃ text, s = .doc text) ∨
    (∃ text, s = .template text) ∨ (∃ signature, signature? s = some signature) ∨
      s.isPassed = true := by
  cases s with
  | eof | namespaceEnd => exact Or.inl rfl
  | doc text => exact Or.inr (Or.inl ⟨text, rfl⟩)
  | template text => exact Or.inr (Or.inr (Or.inl ⟨text, rfl⟩))
  | comment | other | directive | namespaceBegin | unknown =>
    exact Or.inr (Or.inr (Or.inr (Or.inr rfl)))
  | definition | callback | typeAlias | forward | record | function | var =>
    exact Or.inr (Or.inr (Or.inr (Or.inl ⟨_, rfl⟩)))

/-! ## Equations of a run -/

section Equations

variable {members : String → RecordHead → Logged ParseError Entries} {b : Builder} {token : Token}
  {tokens : List Token} {text : String}

/-- At an end nothing more is read. -/
theorem Builder.run_of_isEnd (h : token.statement.isEnd = true) :
    b.run members (token :: tokens) = pure { b with entriesEnd := some token.beginLine } := by
  rw [Builder.run]
  cases hstatement : token.statement with
  | eof | namespaceEnd => rfl
  | _ =>
    rw [hstatement] at h
    cases h

/-- At a doc the one that waits floats, and the new one waits. -/
theorem Builder.run_of_doc (h : token.statement = .doc text) :
    b.run members (token :: tokens) = (do
      writeAll b.floatPending.2
      Builder.run members tokens
        { b.floatPending.1 with pendingDoc := some ⟨text, token.beginLine, token.endLine⟩ }) := by
  rw [Builder.run, h]

/-- At a template it waits, if no other one does. -/
theorem Builder.run_of_template (h : token.statement = .template text) :
    b.run members (token :: tokens) = (do
      b.checkTemplate ("template followed by " ++ token.statement.label)
      Builder.run members tokens
        { b with template := some ⟨text, token.beginLine, token.endLine⟩ }) := by
  rw [Builder.run, h]

/-- At a declaration its entry is added. -/
theorem Builder.run_of_signature {s : Signature} (h : signature? token.statement = some s) :
    b.run members (token :: tokens) = (do
      let b ← b.declare members token s
      Builder.run members tokens b) := by
  rw [Builder.run]
  cases hstatement : token.statement with
  | eof | namespaceEnd | doc | template | comment | other | directive | namespaceBegin | unknown =>
    rw [hstatement] at h
    cases h
  | definition | callback | typeAlias | forward | record | function | var =>
    rw [hstatement] at h
    dsimp only
    rw [h]

/-- At any other statement nothing is added. -/
theorem Builder.run_of_isPassed (h : token.statement.isPassed = true) :
    b.run members (token :: tokens) = (do
      let b ← b.pass token
      Builder.run members tokens b) := by
  rw [Builder.run]
  cases hstatement : token.statement with
  | comment | other | directive | namespaceBegin | unknown => rfl
  | eof | namespaceEnd | doc | template | definition | callback | typeAlias | forward | record
  | function | var =>
    rw [hstatement] at h
    cases h

end Equations

/-! ## Runs that give a result -/

section Steps

variable {members : String → RecordHead → Logged ParseError Entries} {b b' : Builder}
  {token : Token} {tokens : List Token}

/-- The lines are all that is added to an entry with its lines. -/
theorem withLines_eq (options : ParseOptions) (line : Int) (token : Token) (s : Signature) :
    ∃ beginLine declLine endLine,
      withLines options line token s = { s with beginLine, declLine, endLine } := by
  unfold withLines
  split
  · exact ⟨_, _, _, rfl⟩
  · exact ⟨s.beginLine, s.declLine, s.endLine, rfl⟩

/-- A complete entry says what the declaration says, with a doc, a template and lines. -/
theorem complete_eq (options : ParseOptions) (doc template : Option Pending) (token : Token)
    (s : Signature) : ∃ beginLine declLine endLine,
    complete options doc template token s = { s with
      doc := (doc.map Pending.text).getD s.doc
      template := template.map fun t => Parameter.parseList t.text.toList
      beginLine, declLine, endLine } := by
  unfold complete
  exact withLines_eq _ _ _ _

/-- Going through tokens of which none is an end: each declaration gives an entry, which is kept
beside its token, and each other statement is put aside or passed over. -/
inductive Builder.Reads (members : String → RecordHead → Logged ParseError Entries) :
    Builder → List Token → List (Token × Entry) → Builder → Prop
  | done {b : Builder} : Reads members b [] [] b
  | doc {b b' : Builder} {token : Token} {tokens : List Token} {built : List (Token × Entry)}
      {text : String} (hdoc : token.statement = .doc text)
      (later : Reads members
        { b.floatPending.1 with pendingDoc := some ⟨text, token.beginLine, token.endLine⟩ }
        tokens built b') : Reads members b (token :: tokens) built b'
  | template {b b' : Builder} {token : Token} {tokens : List Token} {built : List (Token × Entry)}
      {text : String} (htemplate : token.statement = .template text) (hnone : b.template = none)
      (later : Reads members { b with template := some ⟨text, token.beginLine, token.endLine⟩ }
        tokens built b') : Reads members b (token :: tokens) built b'
  | declaration {b b' : Builder} {token : Token} {tokens : List Token}
      {built : List (Token × Entry)} {s : Signature} {name : String} {body : Option Entries}
      (hs : signature? token.statement = some s)
      (hbody : (bodyOf members name token).outcome = .ok body)
      (later : Reads members (b.declareWith token s body) tokens built b') :
      Reads members b (token :: tokens) ((token, b.entryOf token s body) :: built) b'
  | passed {b next b' : Builder} {token : Token} {tokens : List Token}
      {built : List (Token × Entry)} (hpassed : token.statement.isPassed = true)
      (hnext : (b.pass token).outcome = .ok next) (later : Reads members next tokens built b') :
      Reads members b (token :: tokens) built b'

/-- A run that gives a result has gone through the tokens before the first end. -/
theorem Builder.run_ensures (b : Builder) (tokens : List Token) :
    Ensures (fun b' => ∃ built last entriesEnd,
      Builder.Reads members b (Token.beforeEnd tokens) built last ∧
        b' = { last with entriesEnd }) (b.run members tokens) := by
  induction tokens generalizing b with
  | nil => exact .pure ⟨[], b, b.entriesEnd, .done, rfl⟩
  | cons token tokens ih =>
    by_cases hend : token.statement.isEnd = true
    · rw [Builder.run_of_isEnd hend]
      have hnil : Token.beforeEnd (token :: tokens) = [] := by
        rw [Token.beforeEnd, List.takeWhile_cons, hend]
        rfl
      rw [hnil]
      exact .pure ⟨[], b, some token.beginLine, .done, rfl⟩
    have hcons : Token.beforeEnd (token :: tokens) = token :: Token.beforeEnd tokens := by
      rw [Token.beforeEnd, List.takeWhile_cons, Bool.not_eq_true] at *
      rw [hend]
      rfl
    rw [hcons]
    obtain hend' | ⟨text, hdoc⟩ | ⟨text, htemplate⟩ | ⟨s, hs⟩ | hpassed :=
      statement_cases token.statement
    · exact absurd hend' hend
    · rw [Builder.run_of_doc hdoc]
      refine Ensures.andThen fun _ b' hb' => ?_
      obtain ⟨built, last, line, hreads, hlast⟩ := ih _ b' hb'
      exact ⟨built, last, line, .doc hdoc hreads, hlast⟩
    · rw [Builder.run_of_template htemplate]
      refine (b.checkTemplate_ensures _).bind fun _ hnone b' hb' => ?_
      obtain ⟨built, last, line, hreads, hlast⟩ := ih _ b' hb'
      exact ⟨built, last, line, .template htemplate hnone hreads, hlast⟩
    · rw [Builder.run_of_signature hs]
      refine (b.declare_ensures token s).bind ?_
      rintro _ ⟨name, body, hbody, rfl⟩ b' hb'
      obtain ⟨built, last, line, hreads, hlast⟩ := ih _ b' hb'
      exact ⟨_, last, line, .declaration hs hbody hreads, hlast⟩
    · rw [Builder.run_of_isPassed hpassed]
      refine Ensures.bind (fun _ hnext => hnext) fun next hnext b' hb' => ?_
      obtain ⟨built, last, line, hreads, hlast⟩ := ih next b' hb'
      exact ⟨built, last, line, .passed hpassed hnext hreads, hlast⟩

/-- A run of all tokens that gives a result leaves no template behind. -/
theorem Builder.runAll_ensures (b : Builder) (tokens : List Token) :
    Ensures (fun b' => ∃ built last entriesEnd,
      Builder.Reads members b (Token.beforeEnd tokens) built last ∧ last.template = none ∧
        b' = { last with entriesEnd }) (b.runAll members tokens) := by
  unfold Builder.runAll
  refine (b.run_ensures tokens).bind ?_
  rintro _ ⟨built, last, line, hreads, rfl⟩
  refine (Builder.checkTemplate_ensures _ _).bind fun _ hnone => ?_
  exact .pure ⟨built, last, line, hreads, hnone, rfl⟩

/-- What has been read keeps its value in another form of the errors. -/
theorem mapError_ensures {α : Type} (x : Logged MalformedSource α) :
    Ensures (fun a => x.outcome = .ok a) (x.mapError ParseError.malformed) := by
  intro a ha
  obtain ⟨log, outcome⟩ := x
  cases outcome with
  | error e => cases ha
  | ok found =>
    cases ha
    rfl

/-- What holds of the table of a body whenever it holds of the tables of the records in it holds at
every depth. -/
theorem membersOf_ensures {P : RecordHead → Entries → Prop} (options : ParseOptions)
    (hbody : ∀ (members : String → RecordHead → Logged ParseError Entries),
      (∀ name head, Ensures (P head) (members name head)) →
        ∀ (head : RecordHead) (tokens : List Token) (b last : Builder)
          (built : List (Token × Entry)),
          (Token.stream { enumerators := head.kind = .enum } head.bodyBegin head.body).outcome =
            .ok tokens →
          b.options = options → b.entries = [] →
          Builder.Reads members b (Token.beforeEnd tokens) built last → P head last.entries)
    (fuel : Nat) (name : String) (head : RecordHead) :
    Ensures (P head) (membersOf options fuel name head) := by
  induction fuel generalizing name head with
  | zero => rintro _ ⟨⟩
  | succ fuel ih =>
    rw [membersOf]
    refine (mapError_ensures _).bind fun tokens htokens => ?_
    refine (Builder.runAll_ensures _ tokens).bind ?_
    rintro _ ⟨built, last, line, hreads, -, rfl⟩
    exact .pure (hbody _ ih head tokens _ last built htokens rfl rfl hreads)

/-- A header that is given has been gathered from the tokens before the first end. -/
theorem ofTokens_ensures (name : String) (options : ParseOptions) (tokens : List Token) :
    Ensures (fun header => ∃ built last,
      Builder.Reads (membersOf options (weight (tokens.flatMap bodyLines) + 1)) { name, options }
        (Token.beforeEnd tokens) built last ∧
      last.template = none ∧ header.doc = last.doc ∧ header.entries = last.entries)
      (ofTokens name options tokens) := by
  refine (Builder.runAll_ensures _ tokens).bind ?_
  rintro _ ⟨built, last, line, hreads, hnone, rfl⟩
  exact .pure ⟨built, last, hreads, hnone, rfl, rfl⟩

end Steps

/-! ## What a run has built -/

section Built

variable {members : String → RecordHead → Logged ParseError Entries} {b b' : Builder}
  {token : Token} {tokens before : List Token} {built : List (Token × Entry)} {entry : Entry}

/-- The first tokens have built the first entries. -/
theorem Builder.Reads.split (h : Builder.Reads members b (before ++ tokens) built b') :
    ∃ first later middle, built = first ++ later ∧ Builder.Reads members b before first middle ∧
      Builder.Reads members middle tokens later b' := by
  induction before generalizing b built with
  | nil => exact ⟨[], built, b, rfl, .done, h⟩
  | cons head before ih =>
    cases h with
    | doc hdoc h =>
      obtain ⟨first, later, middle, rfl, hfirst, hlater⟩ := ih h
      exact ⟨first, later, middle, rfl, .doc hdoc hfirst, hlater⟩
    | template htemplate hnone h =>
      obtain ⟨first, later, middle, rfl, hfirst, hlater⟩ := ih h
      exact ⟨first, later, middle, rfl, .template htemplate hnone hfirst, hlater⟩
    | declaration hs hbody h =>
      obtain ⟨first, later, middle, rfl, hfirst, hlater⟩ := ih h
      exact ⟨_ :: first, later, middle, rfl, .declaration hs hbody hfirst, hlater⟩
    | passed hpassed hnext h =>
      obtain ⟨first, later, middle, rfl, hfirst, hlater⟩ := ih h
      exact ⟨first, later, middle, rfl, .passed hpassed hnext hfirst, hlater⟩

/-- A doc declares nothing. -/
theorem declares_of_doc {text : String} (h : token.statement = .doc text) :
    declares token = false := by
  rw [declares, h]
  rfl

/-- A template declares nothing. -/
theorem declares_of_template {text : String} (h : token.statement = .template text) :
    declares token = false := by
  rw [declares, h]
  rfl

/-- A statement with a signature declares something. -/
theorem declares_of_signature {s : Signature} (h : signature? token.statement = some s) :
    declares token = true := by
  rw [declares, h]
  rfl

/-- What is passed over declares nothing. -/
theorem declares_of_isPassed (h : token.statement.isPassed = true) : declares token = false := by
  unfold declares
  cases hstatement : token.statement with
  | comment | other | directive | namespaceBegin | unknown => rfl
  | eof | namespaceEnd | doc | template | definition | callback | typeAlias | forward | record
    | function | var =>
    rw [hstatement] at h
    cases h

/-- There is one entry for each declaration. -/
theorem Builder.Reads.map_fst (h : Builder.Reads members b tokens built b') :
    built.map Prod.fst = tokens.filter declares := by
  induction h with
  | done => rfl
  | doc hdoc _ ih => rw [List.filter_cons_of_neg (by simp [declares_of_doc hdoc]), ih]
  | template htemplate _ _ ih =>
    rw [List.filter_cons_of_neg (by simp [declares_of_template htemplate]), ih]
  | declaration hs _ _ ih =>
    rw [List.filter_cons_of_pos (declares_of_signature hs), List.map_cons, ih]
  | passed hpassed _ _ ih =>
    rw [List.filter_cons_of_neg (by simp [declares_of_isPassed hpassed]), ih]

/-- Entries are added in turn. -/
theorem addAll_append (table : Entries) (first later : List Entry) :
    (table.addAll (first ++ later)).1 = ((table.addAll first).1.addAll later).1 := by
  induction first generalizing table with
  | nil => rfl
  | cons entry first ih =>
    rw [List.cons_append, Entries.addAll, Entries.addAll]
    cases table.add? entry with
    | none => exact ih table
    | some result => exact ih result

/-- The entries are put into the table in turn. -/
theorem Builder.Reads.entries_eq (h : Builder.Reads members b tokens built b') :
    b'.entries = (b.entries.addAll (built.flatMap fun pair => pair.2.hoisted)).1 := by
  induction h with
  | done => rfl
  | @doc b _ _ _ _ _ _ _ ih =>
    rw [ih]
    show (b.floatPending.1.entries.addAll _).1 = _
    rw [b.passes_floatPending.entries]
  | template _ _ _ ih => exact ih
  | @declaration b _ token _ _ s _ body _ _ _ ih =>
    obtain ⟨_, _, _, _, hnext⟩ := b.declareWith_eq token s body
    rw [ih, hnext, List.flatMap_cons, addAll_append]
  | @passed b next _ token _ _ _ hnext _ ih =>
    rw [ih, (b.pass_ensures token next hnext).1.entries]

/-- The entry of a declaration: what the declaration says, with a doc comment, a template and
lines.  `members` has read its body. -/
def BuiltFrom (members : String → RecordHead → Logged ParseError Entries) (options : ParseOptions)
    (token : Token) (entry : Entry) : Prop :=
  ∃ s doc template name, signature? token.statement = some s ∧
    entry.toSignature = complete options doc template token s ∧
    (bodyOf members name token).outcome = .ok entry.members

/-- Every built entry is made from its token. -/
theorem Builder.Reads.builtFrom (h : Builder.Reads members b tokens built b')
    (hentry : (token, entry) ∈ built) : BuiltFrom members b.options token entry := by
  induction h with
  | done => cases hentry
  | doc _ _ ih =>
    rw [← Builder.options_floatPending]
    exact ih hentry
  | template _ _ _ ih => exact ih hentry
  | @declaration b _ head _ _ s _ body hs hbody _ ih =>
    obtain heq | hlater := List.mem_cons.mp hentry
    · cases heq
      exact ⟨s, _, _, _, hs, rfl, hbody⟩
    · obtain ⟨_, _, _, _, hnext⟩ := b.declareWith_eq head s body
      rw [hnext] at ih
      exact ih hlater
  | @passed b next _ head _ _ _ hnext _ ih =>
    rw [← (b.pass_ensures head next hnext).1.options]
    exact ih hentry

end Built

end Header

end HeaderApi
