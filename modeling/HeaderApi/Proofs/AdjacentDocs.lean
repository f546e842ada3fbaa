import HeaderApi.Proofs.DocFates
import HeaderApi.Proofs.DocumentedEntries

/-!
# Doc comments directly before a declaration

A doc comment that ends where a declaration begins is the doc of its entry, and so is one that ends
where the template of the declaration begins.  A doc comment between a template and its declaration
is compared with the template, not with the declaration behind it.
-/

namespace HeaderApi

open Text

namespace Header

/-- The line of the template that waits for its declaration behind some tokens, when `waiting` is
that of the one that waits before them. -/
def waitingBehind (waiting : Option Int) (tokens : List Token) : Option Int :=
  tokens.foldl (fun waiting token =>
    match token.statement with
    | .template _ => some token.beginLine
    | .doc _ => waiting
    | _ => none) waiting

/-- Whether the entry that is built from the declaration behind some tokens has a doc. -/
def HasDoc (built : List (Token × Entry)) (before : List Token) (declaration : Token)
    (doc : String) : Prop :=
  ∃ first entry later, built = first ++ (declaration, entry) :: later ∧
    first.map Prod.fst = before.filter declares ∧ entry.doc = doc

section Adjacent

variable {members : String → RecordHead → Logged ParseError Entries} {b b' : Builder}
  {token : Token} {tokens before : List Token} {built : List (Token × Entry)} {s : Signature}

/-- Behind a token that is neither a doc nor a template no doc waits. -/
theorem waitingBehind_other {waiting : Option Int} (hdoc : ∀ text, token.statement ≠ .doc text)
    (htemplate : ∀ text, token.statement ≠ .template text) :
    waitingBehind waiting (token :: tokens) = waitingBehind none tokens := by
  rw [waitingBehind, List.foldl_cons]
  split
  · rename_i text hstatement
    exact absurd hstatement (htemplate text)
  · rename_i text hstatement
    exact absurd hstatement (hdoc text)
  · rfl

/-- A template waits until another token than a doc comment comes. -/
theorem Builder.Reads.waiting_eq (h : Builder.Reads members b tokens built b') :
    b'.waiting = waitingBehind b.waiting tokens := by
  induction h with
  | done => rfl
  | @doc b _ _ _ _ _ hstatement _ ih =>
    rw [ih, waitingBehind, waitingBehind, List.foldl_cons, hstatement, ← b.waiting_floatPending]
    rfl
  | template hstatement _ _ ih =>
    rw [ih, waitingBehind, waitingBehind, List.foldl_cons, hstatement]
    rfl
  | @declaration b _ token _ _ s _ body hs _ _ ih =>
    obtain ⟨hdoc, htemplate⟩ := ne_of_declares (declares_of_signature hs)
    rw [ih, b.waiting_declareWith, waitingBehind_other hdoc htemplate]
  | passed hpassed hnext _ ih =>
    obtain ⟨hdoc, htemplate⟩ := ne_of_isPassed hpassed
    rw [ih, Builder.waiting_of_pass hnext, waitingBehind_other hdoc htemplate]

/-- What is built of a token that declares something begins with the entry of that token. -/
theorem Builder.Reads.declaration_inv (h : Builder.Reads members b (token :: tokens) built b')
    (hs : signature? token.statement = some s) :
    ∃ body later, built = (token, b.entryOf token s body) :: later := by
  cases h with
  | doc hdoc | template hdoc =>
    rw [hdoc] at hs
    cases hs
  | declaration hs' =>
    cases hs.symm.trans hs'
    exact ⟨_, _, rfl⟩
  | passed hpassed =>
    have hdeclares := declares_of_isPassed hpassed
    rw [declares_of_signature hs] at hdeclares
    cases hdeclares

/-- A template in front of the other tokens is kept for the next declaration, and builds nothing. -/
theorem Builder.Reads.template_inv (h : Builder.Reads members b (token :: tokens) built b')
    {text : String} (htemplate : token.statement = .template text) :
    Builder.Reads members { b with template := some ⟨text, token.beginLine, token.endLine⟩ }
      tokens built b' := by
  cases h with
  | doc hstatement => cases htemplate.symm.trans hstatement
  | template hstatement _ later =>
    cases htemplate.symm.trans hstatement
    exact later
  | declaration hs =>
    rw [htemplate] at hs
    cases hs
  | passed hpassed => exact absurd htemplate ((ne_of_isPassed hpassed).2 text)

/-- The doc of a declaration is that of the doc comment that waits, if it ends where the template
or the declaration begins, and else its own. -/
theorem Builder.doc_entryOf {doc : Pending} (hpending : b.pendingDoc = some doc)
    (body : Option Entries) : (b.entryOf token s body).doc =
      if doc.endLine = b.waiting.getD token.beginLine then doc.text else s.doc := by
  obtain ⟨_, _, _, hcomplete⟩ :=
    complete_eq b.options (b.docFor (b.firstLine token)) b.template token s
  unfold Builder.entryOf
  rw [hcomplete]
  show ((b.docFor (b.firstLine token)).map Pending.text).getD s.doc =
    if doc.endLine = b.firstLine token then doc.text else s.doc
  rw [Builder.docFor, hpending]
  by_cases hline : doc.endLine = b.firstLine token
  · rw [Option.filter_some_pos (by simpa using hline), if_pos hline]
    rfl
  · rw [Option.filter_some_neg (by simpa using hline), if_neg hline]
    rfl

/-- What the doc of a declaration directly behind a doc comment is. -/
theorem Builder.Reads.hasDoc {doc declaration : Token} {text : String} {later : List Token}
    (h : Builder.Reads members b (before ++ doc :: declaration :: later) built b')
    (hdoc : doc.statement = .doc text) (hs : signature? declaration.statement = some s) :
    HasDoc built before declaration
      (if doc.endLine = (waitingBehind b.waiting before).getD declaration.beginLine then text
        else s.doc) := by
  obtain ⟨first, rest, middle, rfl, hfirst, hrest⟩ := h.split
  obtain ⟨body, last, rfl⟩ := (hrest.doc_inv hdoc).declaration_inv hs
  refine ⟨first, _, last, rfl, hfirst.map_fst, ?_⟩
  rw [Builder.doc_entryOf rfl, ← hfirst.waiting_eq, ← middle.waiting_floatPending]
  rfl

/-- What the doc of a declaration is when a doc comment is directly before its template. -/
theorem Builder.Reads.hasDoc_template {doc template declaration : Token}
    {text parameters : String} {later : List Token}
    (h : Builder.Reads members b (before ++ doc :: template :: declaration :: later) built b')
    (hdoc : doc.statement = .doc text) (htemplate : template.statement = .template parameters)
    (hs : signature? declaration.statement = some s) :
    HasDoc built before declaration
      (if doc.endLine = template.beginLine then text else s.doc) := by
  obtain ⟨first, rest, middle, rfl, hfirst, hrest⟩ := h.split
  obtain ⟨body, last, rfl⟩ :=
    ((hrest.doc_inv hdoc).template_inv htemplate).declaration_inv hs
  refine ⟨first, _, last, rfl, hfirst.map_fst, ?_⟩
  rw [Builder.doc_entryOf rfl]
  rfl

end Adjacent

end Header

/-- One entry is built from each declaration before the first end.  Directly behind a doc comment
it has the text of that comment as its doc exactly if the comment ends where the declaration begins
or, when a template already waits for the declaration, where that template begins.  With a template
between the two, it has the text exactly if the comment ends where the template begins.  Else the
declaration keeps the doc of its own. -/
theorem Header.ofTokens_adjacent {name : String} {options : ParseOptions} {tokens : List Token}
    {header : Header} (h : (ofTokens name options tokens).outcome = .ok header) :
    let read := Token.beforeEnd tokens
    let members := membersOf options (weight (tokens.flatMap bodyLines) + 1)
    ∃ built : List (Token × Entry), built.map Prod.fst = read.filter declares ∧
      header.entries = (Entries.addAll [] (built.flatMap fun pair => pair.2.hoisted)).1 ∧
      (∀ pair ∈ built, BuiltFrom members options pair.1 pair.2) ∧
      ∀ before doc text, doc.statement = .doc text →
        (∀ declaration s later, read = before ++ doc :: declaration :: later →
          signature? declaration.statement = some s →
          HasDoc built before declaration
            (if doc.endLine = (waitingBehind none before).getD declaration.beginLine then text
              else s.doc)) ∧
        ∀ template parameters declaration s later,
          read = before ++ doc :: template :: declaration :: later →
          template.statement = .template parameters →
          signature? declaration.statement = some s →
          HasDoc built before declaration
            (if doc.endLine = template.beginLine then text else s.doc) := by
  obtain ⟨built, last, hreads, -, -, hentries⟩ := ofTokens_ensures name options tokens header h
  refine ⟨built, hreads.map_fst, ?_, fun pair hpair => hreads.builtFrom hpair, ?_⟩
  · rw [hentries, hreads.entries_eq]
  intro before doc text hdoc
  constructor
  · intro declaration s later hread hs
    rw [hread] at hreads
    exact hreads.hasDoc hdoc hs
  · intro template parameters declaration s later hread htemplate hs
    rw [hread] at hreads
    exact hreads.hasDoc_template hdoc htemplate hs

/-- The head of a function without parameters. -/
def plainHead (name type : String) : FunctionHead :=
  { name, type, parameters := "", immutable := false, static := false, constexpr := false,
    reference := 0 }

/-- A doc comment before a function template, and one before a function. -/
def documentedTokens : List Token :=
  [⟨.doc "Of f.", 1, 2, 0⟩, ⟨.template "class T", 2, 3, 0⟩,
    ⟨.function (plainHead "f" "T"), 3, 4, 0⟩, ⟨.doc "Of g.", 5, 6, 0⟩, ⟨.function (plainHead "g" "int"), 6, 7, 0⟩, ⟨.eof, 7, 7, 0⟩]

/-- A doc in front of a template belongs to the declaration behind it, and a doc behind a gap to the
declaration that it touches. -/
theorem Header.ofTokens_adjacent_documented :
    ∃ header, (Header.ofTokens "a.h" {} documentedTokens).outcome = .ok header ∧
      ∃ built, HasDoc built [] ⟨.function (plainHead "f" "T"), 3, 4, 0⟩ "Of f." ∧
        HasDoc built (documentedTokens.take 3) ⟨.function (plainHead "g" "int"), 6, 7, 0⟩
          "Of g." := by
  have hok : (Header.ofTokens "a.h" {} documentedTokens).outcome.isOk = true := by decide +kernel
  cases h : (Header.ofTokens "a.h" {} documentedTokens).outcome with
  | error e =>
    rw [h] at hok
    cases hok
  | ok header =>
    obtain ⟨built, -, -, -, hdocs⟩ := Header.ofTokens_adjacent h
    refine ⟨header, rfl, built, ?_, ?_⟩
    · exact (hdocs [] ⟨.doc "Of f.", 1, 2, 0⟩ "Of f." rfl).2 ⟨.template "class T", 2, 3, 0⟩
        "class T" _ _ _ rfl rfl rfl
    · exact (hdocs (documentedTokens.take 3) ⟨.doc "Of g.", 5, 6, 0⟩ "Of g." rfl).1 _ _ _ rfl rfl

/-- A function template whose doc comment stands between the template and the function. -/
def interruptedLines : List Line :=
  ["template<class T>".toList, "/** Doc. */".toList, "T twice();".toList]

/-- The tokens of `interruptedLines`. -/
def interruptedTokens : List Token :=
  [⟨.template "class T", 1, 2, 0⟩, ⟨.doc "Doc.", 2, 3, 0⟩,
    ⟨.function (plainHead "twice" "T"), 3, 4, 0⟩, ⟨.eof, 4, 4, 0⟩]

/-- A doc comment between a template and its declaration floats, although it ends where the
declaration begins. -/
theorem Header.not_forall_adjacent :
    ¬ ∀ (name : String) (options : ParseOptions) (lines : List Line) (tokens : List Token)
      (header : Header), (Token.stream {} 1 lines).outcome = .ok tokens →
      (ofTokens name options tokens).outcome = .ok header →
      ∃ built : List (Token × Entry),
        built.map Prod.fst = (Token.beforeEnd tokens).filter declares ∧
        header.entries = (Entries.addAll [] (built.flatMap fun pair => pair.2.hoisted)).1 ∧
        (∀ pair ∈ built, BuiltFrom (membersOf options (weight (tokens.flatMap bodyLines) + 1))
          options pair.1 pair.2) ∧
        ∀ before doc text declaration later, doc.statement = .doc text →
          Token.beforeEnd tokens = before ++ doc :: declaration :: later →
          declares declaration = true → doc.endLine = declaration.beginLine →
          HasDoc built before declaration text := by
  intro hall
  have htokens : (Token.stream {} 1 interruptedLines).outcome = .ok interruptedTokens := by
    decide +kernel
  have hdocs : ((ofTokens "a.h" {} interruptedTokens).outcome.toOption.map
      fun header => header.entries.toList.map fun entry => entry.doc) = some [""] := by
    decide +kernel
  cases h : (ofTokens "a.h" {} interruptedTokens).outcome with
  | error e =>
    rw [h] at hdocs
    cases hdocs
  | ok header =>
    rw [h] at hdocs
    obtain ⟨built, hfst, hentries, hbuilt, hadjacent⟩ :=
      hall "a.h" {} interruptedLines interruptedTokens header htokens h
    obtain ⟨first, entry, later, rfl, hfirst, hdoc⟩ := hadjacent
      [⟨.template "class T", 1, 2, 0⟩] ⟨.doc "Doc.", 2, 3, 0⟩ "Doc."
      ⟨.function (plainHead "twice" "T"), 3, 4, 0⟩ [] rfl rfl rfl rfl
    cases List.map_eq_nil_iff.mp hfirst
    cases List.map_eq_nil_iff.mp (List.cons.inj hfst).2
    -- The one entry has a name, so it is what the table holds.
    obtain ⟨s, doc, template, _, hs, hentry, -⟩ := hbuilt _ List.mem_cons_self
    obtain ⟨_, _, _, hcomplete⟩ := complete_eq {} doc template
      ⟨.function (plainHead "twice" "T"), 3, 4, 0⟩ s
    have hname : entry.name ≠ "" := by
      cases hs
      rw [hentry, hcomplete]
      exact of_decide_eq_true rfl
    have hone : header.entries.toList = [entry] := by
      rw [hentries, List.nil_append, List.flatMap_singleton, Entry.hoisted_of_name hname]
      rfl
    have hnone : [entry.doc] = [""] := by
      rw [Except.toOption, Option.map_some, hone] at hdocs
      exact Option.some.inj hdocs
    rw [hdoc] at hnone
    exact absurd hnone (by decide)

end HeaderApi
