import HeaderApi.Proofs.GroupingRuns

/-!
# What becomes of doc comments

A doc comment directly before a declaration, or before its template, documents the declaration.
The others float, unless nothing comes behind them.  When floating doc comments are added to the
doc of the file, that doc consists of them in order, with blank lines between them.
-/

namespace HeaderApi

namespace Header

/-! ## Fates -/

/-- What becomes of a doc comment. -/
inductive DocFate where
  /-- It documents the declaration of a token. -/
  | documents (token : Token)
  | floats
  /-- The tokens end before it is decided. -/
  | dropped

/-- What becomes of a doc comment that ends at a line, when the given tokens come behind it.
`waiting` is the line of the template that waits for its declaration. -/
def docFate (line : Int) : Option Int → List Token → DocFate
  | _, [] => .dropped
  | waiting, token :: tokens =>
    match token.statement with
    | .template _ => docFate line (some token.beginLine) tokens
    | _ =>
      if declares token && line = waiting.getD token.beginLine then .documents token else .floats

/-- The text of a doc comment if it floats. -/
def DocFate.floating (text : String) : DocFate → List String
  | .floats => [text]
  | .documents _ | .dropped => []

/-- The doc comments among some tokens that float. -/
def floatingDocs : Option Int → List Token → List String
  | _, [] => []
  | waiting, token :: tokens =>
    match token.statement with
    | .doc text =>
      (docFate token.endLine waiting tokens).floating text ++ floatingDocs waiting tokens
    | .template _ => floatingDocs (some token.beginLine) tokens
    | _ => floatingDocs none tokens

/-- The text of a doc comment. -/
def docText? (token : Token) : Option String :=
  match token.statement with
  | .doc text => some text
  | _ => none

/-- Texts with blank lines between them, without the empty ones. -/
def paragraphs (texts : List String) : String :=
  "\n\n".intercalate (texts.filter fun text => text ≠ "")

section Fates

variable {token : Token} {tokens : List Token} {text : String} {line : Int} {waiting : Option Int}

theorem docFate_template (h : token.statement = .template text) :
    docFate line waiting (token :: tokens) = docFate line (some token.beginLine) tokens := by
  rw [docFate, h]

/-- A declaration takes the doc that ends at its line, or at that of its template; any other doc
floats. -/
theorem docFate_of_declares (h : declares token = true) : docFate line waiting (token :: tokens) =
    if line = waiting.getD token.beginLine then .documents token else .floats := by
  rw [docFate]
  split
  · rename_i htemplate
    rw [declares, htemplate] at h
    cases h
  · simp only [h, Bool.true_and, decide_eq_true_eq]

/-- A doc comment floats before a statement that neither declares something nor belongs to a
declaration. -/
theorem docFate_floats (h : declares token = false)
    (htemplate : ∀ text, token.statement ≠ .template text) :
    docFate line waiting (token :: tokens) = .floats := by
  rw [docFate]
  split
  · rename_i text hstatement
    exact absurd hstatement (htemplate text)
  · rw [h]
    rfl

/-- A token that is neither a doc nor a template makes no doc float later on. -/
theorem floatingDocs_other (hdoc : ∀ text, token.statement ≠ .doc text)
    (htemplate : ∀ text, token.statement ≠ .template text) :
    floatingDocs waiting (token :: tokens) = floatingDocs none tokens := by
  rw [floatingDocs]
  split
  · rename_i text hstatement
    exact absurd hstatement (hdoc text)
  · rename_i text hstatement
    exact absurd hstatement (htemplate text)
  · rfl

/-- A declaration is neither a doc nor a template. -/
theorem ne_of_declares (h : declares token = true) :
    (∀ text, token.statement ≠ .doc text) ∧ ∀ text, token.statement ≠ .template text := by
  constructor
  · intro text hstatement
    rw [declares, hstatement] at h
    cases h
  · intro text hstatement
    rw [declares, hstatement] at h
    cases h

/-- A token that is passed over is neither a doc nor a template. -/
theorem ne_of_isPassed (h : token.statement.isPassed = true) :
    (∀ text, token.statement ≠ .doc text) ∧ ∀ text, token.statement ≠ .template text := by
  constructor
  · intro text hstatement
    rw [hstatement] at h
    cases h
  · intro text hstatement
    rw [hstatement] at h
    cases h

/-- A doc in front of another one floats. -/
theorem docFate_of_doc (h : token.statement = .doc text) :
    docFate line waiting (token :: tokens) = .floats := by
  apply docFate_floats (declares_of_doc h)
  rw [h]
  exact nofun

theorem docFate_of_isPassed (h : token.statement.isPassed = true) :
    docFate line waiting (token :: tokens) = .floats :=
  docFate_floats (declares_of_isPassed h) (ne_of_isPassed h).2

/-- The doc comments that float stand in the order in which they come. -/
theorem floatingDocs_sublist (waiting : Option Int) (tokens : List Token) :
    (floatingDocs waiting tokens).Sublist (tokens.filterMap docText?) := by
  -- Every doc comment is kept or left out where it stands; other tokens have no text.
  induction tokens generalizing waiting with
  | nil => exact List.Sublist.refl _
  | cons token tokens ih =>
    rw [floatingDocs]
    split
    · rename_i text hdoc
      have htext : docText? token = some text := by rw [docText?, hdoc]
      rw [List.filterMap_cons_some htext]
      cases docFate token.endLine waiting tokens with
      | floats => exact (ih waiting).cons_cons text
      | documents | dropped => exact (ih waiting).cons text
    · rename_i hdoc _ htemplate
      have htext : docText? token = none := by rw [docText?, htemplate]
      rw [List.filterMap_cons_none htext]
      exact ih _
    · rename_i hdoc _
      have htext : docText? token = none := by
        rw [docText?]
        split
        · rename_i text hstatement
          exact absurd hstatement (hdoc text)
        · rfl
      rw [List.filterMap_cons_none htext]
      exact ih _

end Fates

/-! ## Paragraphs -/

/-- Texts that make the empty text together are empty. -/
theorem eq_empty_of_intercalate {separator : String} {texts : List String}
    (h : separator.intercalate texts = "") : ∀ text ∈ texts, text = "" := by
  induction texts with
  | nil => exact nofun
  | cons first texts ih =>
    cases texts with
    | nil =>
      rw [String.intercalate_singleton] at h
      intro text htext
      rw [List.mem_singleton.mp htext, h]
    | cons second texts =>
      rw [String.intercalate_cons_cons, String.append_eq_empty_iff, String.append_eq_empty_iff] at h
      obtain ⟨⟨hfirst, -⟩, hrest⟩ := h
      intro text htext
      obtain rfl | hlater := List.mem_cons.mp htext
      · exact hfirst
      · exact ih hrest text hlater

/-- Another text is added behind a blank line, unless it or all before it is empty. -/
theorem paragraphs_concat (texts : List String) (text : String) :
    paragraphs (texts ++ [text]) =
      if text = "" then paragraphs texts
      else if paragraphs texts = "" then text
      else paragraphs texts ++ "\n\n" ++ text := by
  unfold paragraphs
  rw [List.filter_append]
  by_cases htext : text = ""
  · rw [if_pos htext, List.filter_cons_of_neg (by simpa using htext), List.filter_nil,
      List.append_nil]
  rw [if_neg htext, List.filter_cons_of_pos (by simpa using htext), List.filter_nil]
  cases hbefore : texts.filter fun text => text ≠ "" with
  | nil => rw [String.intercalate_nil, if_pos rfl, List.nil_append, String.intercalate_singleton]
  | cons first later =>
    have hfirst : first ≠ "" := by
      have hmem : first ∈ texts.filter fun text => text ≠ "" := by
        rw [hbefore]
        exact List.mem_cons_self
      exact of_decide_eq_true (List.mem_filter.mp hmem).2
    have hne : "\n\n".intercalate (first :: later) ≠ "" :=
      fun hempty => hfirst (eq_empty_of_intercalate hempty first List.mem_cons_self)
    rw [if_neg hne, String.intercalate_append_of_ne_nil (List.cons_ne_nil _ _)
      (List.cons_ne_nil _ _), String.intercalate_singleton]

/-! ## The doc of the file -/

section Docs

variable {members : String → RecordHead → Logged ParseError Entries} {b b' : Builder}
  {token : Token} {tokens : List Token} {built : List (Token × Entry)} {texts : List String}

/-- A floating doc comment is added to the doc of the file. -/
theorem Builder.doc_floatDoc (b : Builder) (happend : b.options.floatingDocs = .append)
    (hdoc : b.doc = paragraphs texts) (doc : Pending) :
    (b.floatDoc doc).1.doc = paragraphs (texts ++ [doc.text]) := by
  rw [paragraphs_concat, ← hdoc]
  unfold Builder.floatDoc
  split
  · rename_i hfirst
    have hempty : b.doc = "" := by simpa using (Bool.and_eq_true_iff.mp hfirst).2
    rw [hempty, if_pos rfl]
    split
    · assumption
    · rfl
  · split
    · rename_i happended
      have htext : doc.text ≠ "" := by simpa using (Bool.and_eq_true_iff.mp happended).2
      rw [if_neg htext]
    · rename_i hdropped
      rw [if_pos]
      by_contra htext
      exact hdropped (by simp [happend, htext])

/-- The line of the template that waits. -/
def Builder.waiting (b : Builder) : Option Int := b.template.map Pending.beginLine

theorem Builder.waiting_floatPending (b : Builder) : b.floatPending.1.waiting = b.waiting := by
  rw [Builder.waiting, Builder.template_floatPending, Builder.waiting]

/-- Behind a declaration no template waits. -/
theorem Builder.waiting_declareWith (b : Builder) (token : Token) (s : Signature)
    (body : Option Entries) : (b.declareWith token s body).waiting = none := by
  obtain ⟨_, _, _, _, hnext⟩ := b.declareWith_eq token s body
  rw [hnext]
  rfl

/-- Behind a token that declares nothing no template waits. -/
theorem Builder.waiting_of_pass (h : (b.pass token).outcome = .ok b') : b'.waiting = none := by
  obtain ⟨-, hnone, -⟩ := b.pass_ensures token b' h
  rw [Builder.waiting, hnone]
  rfl

/-- The text of the doc comment that waits. -/
def Builder.pendingText (b : Builder) : List String := (b.pendingDoc.map Pending.text).toList

/-- The text of the doc comment that waits, if it floats when the tokens come. -/
def Builder.pendingFloats (b : Builder) (tokens : List Token) : List String :=
  match b.pendingDoc with
  | some doc => (docFate doc.endLine b.waiting tokens).floating doc.text
  | none => []

/-- A doc that floats is appended to the doc of the file. -/
theorem Builder.doc_floatPending (happend : b.options.floatingDocs = .append)
    (hdoc : b.doc = paragraphs texts) :
    b.floatPending.1.doc = paragraphs (texts ++ b.pendingText) := by
  unfold Builder.floatPending Builder.pendingText
  cases b.pendingDoc with
  | none =>
    rw [Option.map_none, Option.toList_none, List.append_nil]
    exact hdoc
  | some doc =>
    exact Builder.doc_floatDoc { b with pendingDoc := none } happend hdoc doc

theorem Builder.pendingFloats_none (h : b.pendingDoc = none) : b.pendingFloats tokens = [] := by
  rw [Builder.pendingFloats, h]

theorem Builder.pendingFloats_nil (b : Builder) : b.pendingFloats [] = [] := by
  unfold Builder.pendingFloats
  cases b.pendingDoc with
  | none => rfl
  | some doc => rfl

/-- In front of a template the fate of the doc comment that waits is settled behind it. -/
theorem Builder.pendingFloats_template (h : token.statement = .template text) :
    b.pendingFloats (token :: tokens) = Builder.pendingFloats
      { b with template := some ⟨text, token.beginLine, token.endLine⟩ } tokens := by
  unfold Builder.pendingFloats
  cases b.pendingDoc with
  | none => rfl
  | some doc =>
    dsimp only
    rw [docFate_template h]
    rfl

/-- In front of a token that is neither a declaration nor a template the doc that waits floats. -/
theorem Builder.pendingFloats_eq (h : declares token = false)
    (htemplate : ∀ text, token.statement ≠ .template text) :
    b.pendingFloats (token :: tokens) = b.pendingText := by
  unfold Builder.pendingFloats Builder.pendingText
  cases b.pendingDoc with
  | none => rfl
  | some doc =>
    show (docFate doc.endLine b.waiting (token :: tokens)).floating doc.text = [doc.text]
    rw [docFate_floats h htemplate, DocFate.floating]

/-- A declaration takes the doc comment that waits, or lets it float. -/
theorem Builder.docFor_cases {doc : Pending} (hpending : b.pendingDoc = some doc)
    (hdeclares : declares token = true) (tokens : List Token) :
    (b.docFor (b.firstLine token) = some doc ∧
      docFate doc.endLine b.waiting (token :: tokens) = .documents token) ∨
    (b.docFor (b.firstLine token) = none ∧
      docFate doc.endLine b.waiting (token :: tokens) = .floats) := by
  rw [docFate_of_declares hdeclares, Builder.docFor, hpending]
  by_cases hline : doc.endLine = b.firstLine token
  · refine Or.inl ⟨?_, if_pos hline⟩
    rw [Option.filter_some_pos (by simpa using hline)]
  · refine Or.inr ⟨?_, if_neg hline⟩
    rw [Option.filter_some_neg (by simpa using hline)]

/-- A declaration appends the doc that waits to the doc of the file when it does not take it. -/
theorem Builder.doc_takeDoc (happend : b.options.floatingDocs = .append)
    (hdoc : b.doc = paragraphs texts) (hdeclares : declares token = true) :
    (b.takeDoc (b.docFor (b.firstLine token))).1.doc =
      paragraphs (texts ++ b.pendingFloats (token :: tokens)) := by
  have hfloat := Builder.doc_floatPending happend hdoc
  unfold Builder.pendingText at hfloat
  unfold Builder.pendingFloats
  -- A pending doc either documents the declaration or floats in front of it.
  cases hpending : b.pendingDoc with
  | none =>
    have hnone : b.docFor (b.firstLine token) = none := by
      rw [Builder.docFor, hpending]
      rfl
    rw [hnone]
    rw [hpending] at hfloat
    exact hfloat
  | some doc =>
    obtain ⟨hfor, hfate⟩ | ⟨hfor, hfate⟩ := b.docFor_cases hpending hdeclares tokens
    · rw [hfor]
      dsimp only
      rw [hfate, DocFate.floating, List.append_nil]
      exact hdoc
    · rw [hfor]
      dsimp only
      rw [hfate, DocFate.floating]
      rw [hpending] at hfloat
      exact hfloat

/-- The doc of the file consists of the doc comments that have floated and of those that will. -/
theorem Builder.Reads.doc_eq (h : Builder.Reads members b tokens built b')
    (happend : b.options.floatingDocs = .append) (hdoc : b.doc = paragraphs texts) :
    b'.doc = paragraphs (texts ++ b.pendingFloats tokens ++ floatingDocs b.waiting tokens) := by
  -- A doc comment that waits is not yet in the doc: its fate is read off the tokens behind it.
  induction h generalizing texts with
  | @done b =>
    rw [Builder.pendingFloats_nil, floatingDocs, List.append_nil, List.append_nil, hdoc]
  | @doc b _ token tokens _ text hstatement later ih =>
    have hnext := Builder.doc_floatPending happend hdoc
    rw [← Builder.options_floatPending] at happend
    rw [ih happend hnext, Builder.pendingFloats_eq (declares_of_doc hstatement)
      (by rw [hstatement]; exact nofun)]
    have hfloating : floatingDocs b.waiting (token :: tokens) =
        (docFate token.endLine b.waiting tokens).floating text ++
          floatingDocs b.waiting tokens := by
      rw [floatingDocs, hstatement]
    rw [hfloating, ← b.waiting_floatPending, ← List.append_assoc]
    rfl
  | @template b _ token tokens _ text htemplate hnone later ih =>
    rw [ih happend hdoc]
    have hfloating : floatingDocs b.waiting (token :: tokens) =
        floatingDocs (some token.beginLine) tokens := by
      rw [floatingDocs, htemplate]
    rw [hfloating, Builder.pendingFloats_template htemplate]
    rfl
  | @declaration b _ token tokens _ s _ body hs hbody later ih =>
    obtain ⟨_, _, _, _, hnext⟩ := b.declareWith_eq token s body
    have hdeclares := declares_of_signature hs
    obtain ⟨hdoc', htemplate'⟩ := ne_of_declares hdeclares
    have htaken : (b.declareWith token s body).doc =
        paragraphs (texts ++ b.pendingFloats (token :: tokens)) := by
      rw [hnext]
      exact b.doc_takeDoc happend hdoc hdeclares
    have hpending : (b.declareWith token s body).pendingDoc = none := by rw [hnext]
    rw [ih (by rw [hnext]; exact happend) htaken, Builder.pendingFloats_none hpending,
      b.waiting_declareWith, List.append_nil, floatingDocs_other hdoc' htemplate']
  | @passed b next _ token tokens _ hpassed hnext later ih =>
    obtain ⟨hpasses, -, hfloated⟩ := b.pass_ensures token next hnext
    obtain ⟨hdoc', htemplate'⟩ := ne_of_isPassed hpassed
    have hfloats := Builder.doc_floatPending happend hdoc
    rw [ih (hpasses.options ▸ happend) (hfloated.trans hfloats),
      Builder.pendingFloats_none hpasses.doc, List.append_nil, Builder.waiting_of_pass hnext,
      floatingDocs_other hdoc' htemplate',
      Builder.pendingFloats_eq (declares_of_isPassed hpassed) htemplate']

/-! ## The other fates -/

/-- A doc comment that documents a declaration is the doc of its entry. -/
theorem Builder.Reads.documents (h : Builder.Reads members b tokens built b') {doc : Pending}
    (hpending : b.pendingDoc = some doc) {next : Token}
    (hfate : docFate doc.endLine b.waiting tokens = .documents next) :
    tokens.find? declares = some next ∧
      ∃ entry later, built = (next, entry) :: later ∧ entry.doc = doc.text := by
  -- Only a template may stand between a doc and the declaration that it documents.
  induction h with
  | done => cases hfate
  | doc hstatement =>
    rw [docFate_of_doc hstatement] at hfate
    cases hfate
  | @template b _ token _ _ _ htemplate _ _ ih =>
    rw [docFate_template htemplate] at hfate
    rw [List.find?_cons_of_neg (by simp [declares_of_template htemplate])]
    exact ih hpending hfate
  | @declaration b _ token later _ s _ body hs _ _ _ =>
    have hdeclares := declares_of_signature hs
    obtain ⟨hfor, hfate'⟩ | ⟨-, hfate'⟩ :=
      b.docFor_cases hpending hdeclares later
    · rw [hfate'] at hfate
      cases hfate
      refine ⟨List.find?_cons_of_pos hdeclares, _, _, rfl, ?_⟩
      obtain ⟨_, _, _, hcomplete⟩ := complete_eq b.options (some doc) b.template next s
      unfold Builder.entryOf
      rw [hfor, hcomplete]
      rfl
    · rw [hfate'] at hfate
      cases hfate
  | passed hpassed =>
    rw [docFate_of_isPassed hpassed] at hfate
    cases hfate

/-- A doc comment is only dropped at the end, where no template waits. -/
theorem Builder.Reads.dropped (h : Builder.Reads members b tokens built b')
    (htemplate : b'.template = none) {line : Int}
    (hfate : docFate line b.waiting tokens = .dropped) : tokens = [] := by
  induction h with
  | done => rfl
  | doc hstatement =>
    rw [docFate_of_doc hstatement] at hfate
    cases hfate
  | template hstatement _ later ih =>
    rw [docFate_template hstatement] at hfate
    cases ih htemplate hfate
    cases later
    cases htemplate
  | declaration hs =>
    rw [docFate_of_declares (declares_of_signature hs)] at hfate
    split at hfate
    · cases hfate
    · cases hfate
  | passed hpassed =>
    rw [docFate_of_isPassed hpassed] at hfate
    cases hfate

/-- Behind a doc the other tokens are read with this doc waiting. -/
theorem Builder.Reads.doc_inv (h : Builder.Reads members b (token :: tokens) built b')
    {text : String} (hdoc : token.statement = .doc text) :
    Builder.Reads members
      { b.floatPending.1 with pendingDoc := some ⟨text, token.beginLine, token.endLine⟩ }
      tokens built b' := by
  cases h with
  | doc hstatement later =>
    cases hdoc.symm.trans hstatement
    exact later
  | template hstatement => cases hdoc.symm.trans hstatement
  | declaration hs =>
    rw [hdoc] at hs
    cases hs
  | passed hpassed => exact absurd hdoc ((ne_of_isPassed hpassed).1 text)

/-- The doc comments that float behind some tokens are the last ones that float. -/
theorem Builder.Reads.floatingDocs_suffix (h : Builder.Reads members b tokens built b')
    (after : List Token) :
    floatingDocs b'.waiting after <:+ floatingDocs b.waiting (tokens ++ after) := by
  induction h with
  | done => exact List.suffix_rfl
  | @doc b _ _ _ _ _ hstatement _ ih =>
    rw [List.cons_append, floatingDocs, hstatement, ← b.waiting_floatPending]
    exact ih.trans (List.suffix_append _ _)
  | template hstatement _ _ ih =>
    rw [List.cons_append, floatingDocs, hstatement]
    exact ih
  | @declaration b _ token _ _ s _ body hs _ _ ih =>
    obtain ⟨hdoc, htemplate⟩ := ne_of_declares (declares_of_signature hs)
    rw [List.cons_append, floatingDocs_other hdoc htemplate, ← b.waiting_declareWith token s body]
    exact ih
  | passed hpassed hnext _ ih =>
    obtain ⟨hdoc, htemplate⟩ := ne_of_isPassed hpassed
    rw [List.cons_append, floatingDocs_other hdoc htemplate, ← Builder.waiting_of_pass hnext]
    exact ih

end Docs

/-- Whether a text is the doc of the entry that is built from the next declaration behind some
tokens. -/
def DocumentsNext (built : List (Token × Entry)) (before after : List Token) (text : String) :
    Prop :=
  ∃ first next entry later, built = first ++ (next, entry) :: later ∧
    first.map Prod.fst = before.filter declares ∧ after.find? declares = some next ∧
    entry.doc = text

/-- Every doc with a token behind it floats or documents the next declaration. -/
theorem Builder.Reads.fate {members : String → RecordHead → Logged ParseError Entries}
    {b b' : Builder} {token : Token} {before after : List Token} {built : List (Token × Entry)}
    {text : String} (h : Builder.Reads members b (before ++ token :: after) built b')
    (htemplate : b'.template = none) (hdoc : token.statement = .doc text) (hafter : after ≠ []) :
    text ∈ floatingDocs b.waiting (before ++ token :: after) ∨
      DocumentsNext built before after text := by
  obtain ⟨first, later, middle, rfl, hfirst, hlater⟩ := h.split
  have hrest := hlater.doc_inv hdoc
  cases hfate : docFate token.endLine middle.floatPending.1.waiting after with
  | floats =>
    refine Or.inl ((hfirst.floatingDocs_suffix (token :: after)).subset ?_)
    rw [floatingDocs, hdoc, ← middle.waiting_floatPending, hfate]
    exact List.mem_append_left _ (List.mem_singleton_self text)
  | documents next =>
    obtain ⟨hnext, entry, rest, hbuilt, hentry⟩ := hrest.documents rfl hfate
    exact Or.inr ⟨first, next, entry, rest, congrArg (first ++ ·) hbuilt, hfirst.map_fst, hnext,
      hentry⟩
  | dropped => exact absurd (hrest.dropped htemplate hfate) hafter

end Header

/-- When floating doc comments are added to the doc of the file, it consists of those that float,
in order.  A doc comment before the first end, unless it is the last token there, either floats or
is the doc of the entry that is built from the next declaration. -/
theorem Header.ofTokens_docs {name : String} {options : ParseOptions} {tokens : List Token}
    {header : Header} (happend : options.floatingDocs = .append)
    (h : (ofTokens name options tokens).outcome = .ok header) :
    let read := Token.beforeEnd tokens
    header.doc = paragraphs (floatingDocs none read) ∧
    (floatingDocs none read).Sublist (read.filterMap docText?) ∧
    ∃ built : List (Token × Entry), built.map Prod.fst = read.filter declares ∧
      header.entries = (Entries.addAll [] (built.flatMap fun pair => pair.2.hoisted)).1 ∧
      ∀ before token after text, read = before ++ token :: after → token.statement = .doc text →
        after ≠ [] → text ∈ floatingDocs none read ∨ DocumentsNext built before after text := by
  obtain ⟨built, last, hreads, hnone, hdoc, hentries⟩ :=
    ofTokens_ensures name options tokens header h
  refine ⟨?_, floatingDocs_sublist none _, built, hreads.map_fst, ?_, ?_⟩
  · have hstart : ({ name, options } : Builder).doc = paragraphs [] := rfl
    rw [hdoc, hreads.doc_eq happend hstart]
    rfl
  · rw [hentries, hreads.entries_eq]
  · intro before token after text hread hstatement hafter
    rw [hread] at hreads ⊢
    exact hreads.fate hnone hstatement hafter

/-- A doc comment of the file, one of a function, and one behind it. -/
def commentedTokens : List Token :=
  let head : FunctionHead :=
    { name := "f", type := "int", parameters := "", immutable := false, static := false,
      constexpr := false, reference := 0 }
  [⟨.doc "A file.", 1, 2, 0⟩, ⟨.comment, 3, 4, 0⟩, ⟨.doc "Of f.", 4, 5, 0⟩,
    ⟨.function head, 5, 6, 0⟩, ⟨.doc "Loose.", 6, 7, 0⟩, ⟨.comment, 8, 9, 0⟩, ⟨.eof, 9, 9, 0⟩]

/-- Two of three docs float, and the function takes the one in front of it. -/
theorem Header.ofTokens_docs_commented :
    ∃ header, (Header.ofTokens "a.h" { floatingDocs := .append } commentedTokens).outcome =
        .ok header ∧
      ({ floatingDocs := .append } : ParseOptions).floatingDocs = .append ∧
      header.doc = "A file.\n\nLoose." ∧
      ∃ built, Header.DocumentsNext built (commentedTokens.take 2)
        ((commentedTokens.drop 3).take 3) "Of f." := by
  have hok : (Header.ofTokens "a.h" { floatingDocs := .append } commentedTokens).outcome.isOk =
      true := by decide +kernel
  cases h : (Header.ofTokens "a.h" { floatingDocs := .append } commentedTokens).outcome with
  | error e =>
    rw [h] at hok
    cases hok
  | ok header =>
    obtain ⟨hdoc, -, built, -, -, hfates⟩ := Header.ofTokens_docs rfl h
    refine ⟨header, rfl, rfl, hdoc.trans (by decide +kernel), built, ?_⟩
    obtain hfloats | hdocuments := hfates (commentedTokens.take 2) ⟨.doc "Of f.", 4, 5, 0⟩
      ((commentedTokens.drop 3).take 3) "Of f." rfl rfl nofun
    · exact absurd hfloats (by decide +kernel)
    · exact hdocuments

/-- A doc comment and nothing else. -/
def onlyCommentTokens : List Token := [⟨.doc "Only words.", 1, 2, 0⟩, ⟨.eof, 2, 2, 0⟩]

/-- A doc comment behind which nothing comes is lost, also when floating doc comments are added to
the doc of the file. -/
theorem Header.not_forall_docs_kept :
    ¬ ∀ (name : String) (options : ParseOptions) (tokens : List Token) (header : Header),
      options.floatingDocs = .append → (ofTokens name options tokens).outcome = .ok header →
      ∃ (parts : List String) (built : List (Token × Entry)),
        header.doc = "\n\n".intercalate parts ∧
        built.map Prod.fst = (Token.beforeEnd tokens).filter declares ∧
        ∀ before token after text, Token.beforeEnd tokens = before ++ token :: after →
          token.statement = .doc text → text ≠ "" →
          text ∈ parts ∨ DocumentsNext built before after text := by
  intro hall
  have hempty : ((ofTokens "a.h" { floatingDocs := .append }
      onlyCommentTokens).outcome.toOption.map Header.doc) = some "" := by decide +kernel
  cases h : (ofTokens "a.h" { floatingDocs := .append } onlyCommentTokens).outcome with
  | error e =>
    rw [h] at hempty
    cases hempty
  | ok header =>
    rw [h] at hempty
    obtain ⟨parts, built, hdoc, -, hfates⟩ :=
      hall "a.h" { floatingDocs := .append } onlyCommentTokens header rfl h
    have hparts : "\n\n".intercalate parts = "" := hdoc.symm.trans (Option.some.inj hempty)
    obtain hmem | ⟨first, next, entry, later, -, -, hnext, -⟩ :=
      hfates [] ⟨.doc "Only words.", 1, 2, 0⟩ [] "Only words." rfl rfl (by decide)
    · exact absurd (eq_empty_of_intercalate hparts "Only words." hmem) (by decide)
    · cases hnext

end HeaderApi
