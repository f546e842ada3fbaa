import HeaderApi.Proofs.GroupingRuns

/-!
# What the options of reading change

Whether line numbers are kept changes nothing but the line numbers, and what becomes of floating
doc comments changes nothing but the doc of the file.  Neither decides whether a source is
accepted.  And a header that is read without tolerance is read as the same one with it.
-/

namespace HeaderApi

open Text

/-! ## Entries without line numbers -/

/-- The signature without its line numbers. -/
def Signature.eraseLines (s : Signature) : Signature :=
  { s with beginLine := none, declLine := none, endLine := none }

mutual

/-- The entry without line numbers, and its members without theirs, at every depth. -/
def Entry.eraseLines : Entry → Entry
  | ⟨signature, none⟩ => ⟨signature.eraseLines, none⟩
  | ⟨signature, some members⟩ => ⟨signature.eraseLines, some (eraseLinesMembers members)⟩

/-- The slot without line numbers. -/
def Slot.eraseLines : Slot → Slot
  | .single entry => .single entry.eraseLines
  | .overloads first more => .overloads first.eraseLines (eraseLinesList more)

/-- The entries of a list without line numbers. -/
def eraseLinesList : List Entry → List Entry
  | [] => []
  | entry :: entries => entry.eraseLines :: eraseLinesList entries

/-- The members of a record without line numbers. -/
def eraseLinesMembers : List (String × Slot) → List (String × Slot)
  | [] => []
  | (key, slot) :: members => (key, slot.eraseLines) :: eraseLinesMembers members

end

/-- The table without line numbers. -/
def Entries.eraseLines (table : Entries) : Entries := eraseLinesMembers table

/-- Erasing the lines of a table erases those of each slot. -/
theorem Entries.eraseLines_eq (table : Entries) :
    table.eraseLines = Keyed.mapValues Slot.eraseLines table := by
  induction table with
  | nil => rfl
  | cons pair table ih =>
    obtain ⟨key, slot⟩ := pair
    rw [eraseLines] at ih ⊢
    rw [eraseLinesMembers, ih]
    rfl

theorem eraseLinesList_append (first second : List Entry) :
    eraseLinesList (first ++ second) = eraseLinesList first ++ eraseLinesList second := by
  induction first with
  | nil => rfl
  | cons entry first ih =>
    rw [List.cons_append, eraseLinesList, eraseLinesList, ih, List.cons_append]

section Fields

variable (entry : Entry)

@[simp] theorem Entry.name_eraseLines : entry.eraseLines.name = entry.name := by
  obtain ⟨signature, _ | members⟩ := entry
  · rfl
  · rfl

@[simp] theorem Entry.kind_eraseLines : entry.eraseLines.kind = entry.kind := by
  obtain ⟨signature, _ | members⟩ := entry
  · rfl
  · rfl

@[simp] theorem Entry.doc_eraseLines : entry.eraseLines.doc = entry.doc := by
  obtain ⟨signature, _ | members⟩ := entry
  · rfl
  · rfl

@[simp] theorem Entry.key_eraseLines : entry.eraseLines.key = entry.key := by
  rw [Entry.key, Entry.key, Entry.name_eraseLines, Entry.kind_eraseLines]

end Fields

/-! ## Line numbers and tables -/

mutual

/-- The entries that stand for an entry do not depend on line numbers. -/
theorem Entry.hoisted_eraseLines : (entry : Entry) →
    entry.eraseLines.hoisted = eraseLinesList entry.hoisted
  | ⟨signature, none⟩ => by
    rw [Entry.eraseLines, Entry.hoisted, Entry.hoisted, eraseLinesList, Entry.eraseLines,
      eraseLinesList]
  | ⟨signature, some members⟩ => by
    have hname : signature.eraseLines.name = signature.name := rfl
    rw [Entry.eraseLines, Entry.hoisted, Entry.hoisted, hname]
    split
    · exact hoistedMembers_eraseLines members
    · rw [eraseLinesList, Entry.eraseLines, eraseLinesList]

/-- What is hoisted of a slot does not depend on its lines. -/
theorem Slot.hoisted_eraseLines : (slot : Slot) →
    slot.eraseLines.hoisted = eraseLinesList slot.hoisted
  | .single entry => by
    rw [Slot.eraseLines, Slot.hoisted, Slot.hoisted, Entry.hoisted_eraseLines entry]
  | .overloads first more => by
    rw [Slot.eraseLines, Slot.hoisted, Slot.hoisted, Entry.hoisted_eraseLines first,
      hoistedList_eraseLines more, eraseLinesList_append]

/-- What is hoisted of entries does not depend on their lines. -/
theorem hoistedList_eraseLines : (entries : List Entry) →
    hoistedList (eraseLinesList entries) = eraseLinesList (hoistedList entries)
  | [] => by rw [eraseLinesList, hoistedList, eraseLinesList]
  | entry :: entries => by
    rw [eraseLinesList, hoistedList, hoistedList, Entry.hoisted_eraseLines entry,
      hoistedList_eraseLines entries, eraseLinesList_append]

/-- What is hoisted of a table does not depend on its lines. -/
theorem hoistedMembers_eraseLines : (members : List (String × Slot)) →
    hoistedMembers (eraseLinesMembers members) = eraseLinesList (hoistedMembers members)
  | [] => by rw [eraseLinesMembers, hoistedMembers, eraseLinesList]
  | (key, slot) :: members => by
    rw [eraseLinesMembers, hoistedMembers, hoistedMembers, Slot.hoisted_eraseLines slot,
      hoistedMembers_eraseLines members, eraseLinesList_append]

end

/-- What becomes of a slot does not depend on line numbers. -/
theorem Slot.add?_eraseLines (slot : Slot) (entry : Entry) :
    slot.eraseLines.add? entry.eraseLines = (slot.add? entry).map Slot.eraseLines := by
  cases slot with
  | single current =>
    rw [Slot.eraseLines, Slot.add?, Slot.add?, Entry.kind_eraseLines, Entry.kind_eraseLines,
      Entry.doc_eraseLines, Entry.doc_eraseLines]
    split
    · rw [Option.map_some, Slot.eraseLines, eraseLinesList, eraseLinesList]
    · split
      · rw [Option.map_some, Slot.eraseLines]
      · rfl
  | overloads first more =>
    rw [Slot.eraseLines, Slot.add?, Slot.add?, Entry.kind_eraseLines]
    split
    · rw [Option.map_some, Slot.eraseLines, eraseLinesList_append, eraseLinesList, eraseLinesList]
    · rfl

/-- Whether an entry can be added to a table does not depend on any lines. -/
theorem Entries.add?_eraseLines (table : Entries) (entry : Entry) :
    table.eraseLines.add? entry.eraseLines = (table.add? entry).map Entries.eraseLines := by
  rw [Entries.add?, Entries.add?, Entry.key_eraseLines, Entries.eraseLines_eq,
    Keyed.find?_mapValues]
  cases Keyed.find? table entry.key with
  | none =>
    show some _ = some (Entries.eraseLines _)
    rw [Entries.eraseLines_eq, Keyed.mapValues_insert, Slot.eraseLines]
  | some slot =>
    show ((slot.eraseLines).add? _).map _ = _
    rw [Slot.add?_eraseLines, Option.map_map, Option.map_map]
    congr 1
    funext result
    show _ = Entries.eraseLines _
    rw [Entries.eraseLines_eq, Keyed.mapValues_insert]
    rfl

/-- Entries are added to a table in the same way whatever their lines are. -/
theorem Entries.addAll_eraseLines (table : Entries) (entries : List Entry) :
    (table.eraseLines.addAll (eraseLinesList entries)).1 =
      (table.addAll entries).1.eraseLines := by
  induction entries generalizing table with
  | nil => rfl
  | cons entry entries ih =>
    rw [eraseLinesList, Entries.addAll, Entries.addAll, Entries.add?_eraseLines]
    cases table.add? entry with
    | none => exact ih table
    | some result => exact ih result

/-! ## Two computations -/

/-- The second computation follows the first: where the first gives a result the second gives a
related one, and when it is `strict`, it fails where the first fails and in the same way. -/
structure Logged.Follows {α β : Type} (strict : Prop) (R : α → β → Prop)
    (x : Logged ParseError α) (y : Logged ParseError β) : Prop where
  ok : ∀ a, x.outcome = .ok a → ∃ b, y.outcome = .ok b ∧ R a b
  error : strict → ∀ e, x.outcome = .error e → y.outcome = .error e

namespace Logged.Follows

variable {α β γ δ : Type} {strict : Prop} {R : α → β → Prop} {S : γ → δ → Prop}

theorem pure {a : α} {b : β} (h : R a b) :
    Follows strict R (Pure.pure a : Logged ParseError α) (Pure.pure b) := by
  constructor
  · rintro _ ⟨⟩
    exact ⟨b, rfl, h⟩
  · rintro - _ ⟨⟩

theorem refl (x : Logged ParseError α) : Follows strict Eq x x :=
  ⟨fun a h => ⟨a, h, rfl⟩, fun _ _ h => h⟩

theorem write (log log' : Log) :
    Follows strict Eq (Header.writeAll log) (Header.writeAll log') := by
  constructor
  · rintro _ ⟨⟩
    exact ⟨(), rfl, rfl⟩
  · rintro - _ ⟨⟩

theorem fail (e : ParseError) : Follows strict R (Logged.fail e) (Logged.fail e) := by
  constructor
  · rintro _ ⟨⟩
  · rintro - _ ⟨⟩
    rfl

/-- Computations follow each other in turn when each of them does for related results. -/
theorem bind {x : Logged ParseError α} {y : Logged ParseError β} {f : α → Logged ParseError γ}
    {g : β → Logged ParseError δ} (h : Follows strict R x y)
    (hfg : ∀ a b, R a b → Follows strict S (f a) (g b)) :
    Follows strict S (x >>= f) (y >>= g) := by
  obtain ⟨log, outcome⟩ := x
  obtain ⟨log', outcome'⟩ := y
  cases outcome with
  | ok a =>
    obtain ⟨b, hb, hR⟩ := h.ok a rfl
    cases hb
    exact ⟨(hfg a b hR).ok, (hfg a b hR).error⟩
  | error e =>
    constructor
    · rintro _ ⟨⟩
    · rintro hstrict _ ⟨⟩
      cases h.error hstrict e rfl
      rfl

/-- Computations that are only run for their log lines and errors. -/
theorem andThen {x y : Logged ParseError Unit} {f : Logged ParseError γ}
    {g : Logged ParseError δ} (h : Follows strict Eq x y) (hfg : Follows strict S f g) :
    Follows strict S (x >>= fun _ => f) (y >>= fun _ => g) :=
  h.bind fun _ _ _ => hfg

end Logged.Follows

namespace Header

/-! ## Builders under two options -/

/-- Tables that differ in line numbers alone, and not even in these when the options agree on
them. -/
structure SameEntries (o o' : ParseOptions) (table table' : Entries) : Prop where
  eraseLines_eq : table.eraseLines = table'.eraseLines
  eq : o.storeLineNumbers = o'.storeLineNumbers → table = table'

/-- Builders that know the same doc of the file, from the same lines. -/
def Builder.SameDoc (b b' : Builder) : Prop :=
  b.doc = b'.doc ∧ b.docBegin = b'.docBegin ∧ b.docEnd = b'.docEnd

/-- Builders under two options that have read the same: they differ in line numbers when the
options differ in these, and in the doc of the file when the options differ in what becomes of
floating doc comments. -/
structure Builder.Alike (o o' : ParseOptions) (b b' : Builder) : Prop where
  options : b.options = o
  options' : b'.options = o'
  name : b.name = b'.name
  declared : b.declared = b'.declared
  entriesBegin : b.entriesBegin = b'.entriesBegin
  entriesEnd : b.entriesEnd = b'.entriesEnd
  includes : b.includes = b'.includes
  localIncludes : b.localIncludes = b'.localIncludes
  pendingDoc : b.pendingDoc = b'.pendingDoc
  template : b.template = b'.template
  entries : SameEntries o o' b.entries b'.entries
  doc : o.floatingDocs = o'.floatingDocs → b.SameDoc b'

section Builder

variable {o o' : ParseOptions} {b b' : Builder} {strict : Prop}

/-- A doc that floats does so in both builders. -/
theorem Builder.SameDoc.floatDoc (h : b.SameDoc b') (hdeclared : b.declared = b'.declared)
    (hdocs : b.options.floatingDocs = b'.options.floatingDocs) (doc : Pending) :
    (b.floatDoc doc).1.SameDoc (b'.floatDoc doc).1 := by
  obtain ⟨htext, hbegin, hend⟩ := h
  unfold Builder.floatDoc
  rw [hdeclared, htext, hdocs]
  split
  · exact ⟨rfl, rfl, rfl⟩
  · split
    · exact ⟨rfl, hbegin, hend⟩
    · exact ⟨htext, hbegin, hend⟩

/-- A doc that floats leaves builders alike. -/
theorem Builder.Alike.floatDoc (h : b.Alike o o' b') (doc : Pending) :
    (b.floatDoc doc).1.Alike o o' (b'.floatDoc doc).1 := by
  have hdoc : o.floatingDocs = o'.floatingDocs →
      (b.floatDoc doc).1.SameDoc (b'.floatDoc doc).1 := by
    intro hsame
    refine (h.doc hsame).floatDoc h.declared ?_ doc
    rw [h.options, h.options', hsame]
  obtain ⟨text, docBegin, docEnd, hfloat⟩ := b.floatDoc_eq doc
  obtain ⟨text', docBegin', docEnd', hfloat'⟩ := b'.floatDoc_eq doc
  rw [hfloat, hfloat'] at hdoc ⊢
  exact { h with doc := hdoc }

/-- The doc that waits floats in both builders. -/
theorem Builder.Alike.floatPending (h : b.Alike o o' b') :
    b.floatPending.1.Alike o o' b'.floatPending.1 := by
  unfold Builder.floatPending
  rw [h.pendingDoc]
  split
  · have hnone : Builder.Alike o o' { b with pendingDoc := none } { b' with pendingDoc := none } :=
      { h with pendingDoc := rfl }
    exact hnone.floatDoc _
  · exact h

/-! ## Steps of two builders -/

/-- A template that may not wait is an error in both builders. -/
theorem Builder.Alike.checkTemplate (h : b.Alike o o' b') (detail : String) :
    Logged.Follows strict Eq (b.checkTemplate detail) (b'.checkTemplate detail) := by
  unfold Builder.checkTemplate
  rw [h.template]
  exact .refl _

/-- A template is dropped in both builders. -/
theorem Builder.Alike.dropTemplate (h : b.Alike o o' b') :
    b.dropTemplate.1.Alike o o' b'.dropTemplate.1 := by
  unfold Builder.dropTemplate
  rw [h.template]
  split
  · exact { h with template := rfl }
  · exact h

/-- An include is taken in by both builders. -/
theorem Builder.Alike.addInclude (h : b.Alike o o' b') (directive : String) :
    (b.addInclude directive).Alike o o' (b'.addInclude directive) := by
  unfold Builder.addInclude
  split
  · exact { h with localIncludes := congrArg (· ++ [_]) h.localIncludes }
  · exact { h with includes := congrArg (· ++ [_]) h.includes }
  · exact h

/-- A token is passed over by both builders. -/
theorem Builder.Alike.passOver (h : b.Alike o o' b') (token : Token) :
    (b.passOver token).Alike o o' (b'.passOver token) := by
  unfold Builder.passOver
  split
  · exact { h with entriesBegin := rfl }
  · exact h.addInclude _
  · exact h

/-- What the options say about statements that are not understood: the second tolerate them where
the first do, and only there when the second computation is strict. -/
def Tolerates (strict : Prop) (o o' : ParseOptions) : Prop :=
  (o.tolerateUnknown = true → o'.tolerateUnknown = true) ∧
    (strict → o.tolerateUnknown = o'.tolerateUnknown)

/-- An unknown line that the first builder tolerates is tolerated by the second. -/
theorem Builder.Alike.unknown (h : b.Alike o o' b') (htolerates : Tolerates strict o o')
    (line : Int) (text : String) :
    Logged.Follows strict Eq (b.unknown line text) (b'.unknown line text) := by
  unfold Builder.unknown
  rw [h.options, h.options']
  cases htolerated : o.tolerateUnknown with
  | true =>
    rw [if_pos rfl, if_pos (htolerates.1 htolerated)]
    exact .write _ _
  | false =>
    rw [if_neg Bool.false_ne_true]
    constructor
    · rintro _ ⟨⟩
    · intro hstrict e he
      rw [← htolerates.2 hstrict, htolerated]
      exact he

/-- A token that declares nothing is read by both builders. -/
theorem Builder.Alike.pass (h : b.Alike o o' b') (htolerates : Tolerates strict o o')
    (token : Token) :
    Logged.Follows strict (Builder.Alike o o') (b.pass token) (b'.pass token) := by
  by_cases hknown : ∀ text, token.statement ≠ .unknown text
  · rw [Builder.pass_of_known hknown, Builder.pass_of_known hknown]
    apply (h.checkTemplate _).andThen
    apply (Logged.Follows.write _ _).andThen
    exact .pure (h.floatPending.passOver token)
  obtain ⟨text, hunknown⟩ := not_forall_not.mp hknown
  cases hfirst : b.options.tolerateUnknown with
  | true =>
    have hsecond : b'.options.tolerateUnknown = true :=
      h.options' ▸ htolerates.1 (h.options ▸ hfirst)
    rw [Builder.pass_of_tolerated hunknown hfirst, Builder.pass_of_tolerated hunknown hsecond]
    have hpassed := h.dropTemplate.floatPending
    apply (Logged.Follows.write _ _).andThen
    apply (Logged.Follows.write _ _).andThen
    apply (hpassed.unknown htolerates _ _).andThen
    exact .pure hpassed
  | false =>
    cases hsecond : b'.options.tolerateUnknown with
    | true =>
      -- The second computation goes on where the first fails, so it cannot be strict.
      constructor
      · exact fun next hnext => (Builder.pass_fails hunknown hfirst next hnext).elim
      · intro hstrict
        have hsame := htolerates.2 hstrict
        rw [← h.options, ← h.options', hfirst, hsecond] at hsame
        cases hsame
    | false =>
      rw [Builder.pass_of_not_tolerated hunknown hfirst,
        Builder.pass_of_not_tolerated hunknown hsecond]
      apply (h.checkTemplate _).andThen
      apply (Logged.Follows.write _ _).andThen
      exact .fail _

/-! ## Declarations -/

/-- Whether line numbers are kept changes no more than the line numbers. -/
theorem eraseLines_withLines (options : ParseOptions) (line : Int) (token : Token)
    (s : Signature) : (withLines options line token s).eraseLines = s.eraseLines := by
  unfold withLines
  split
  · rfl
  · rfl

/-- Completed entries differ in their lines alone, whatever the options. -/
theorem eraseLines_complete (o o' : ParseOptions) (doc template : Option Pending) (token : Token)
    (s : Signature) :
    (complete o doc template token s).eraseLines =
      (complete o' doc template token s).eraseLines := by
  unfold complete
  rw [eraseLines_withLines, eraseLines_withLines]

theorem complete_congr (h : o.storeLineNumbers = o'.storeLineNumbers)
    (doc template : Option Pending) (token : Token) (s : Signature) :
    complete o doc template token s = complete o' doc template token s := by
  unfold complete withLines
  rw [h]

/-- Entries that differ in line numbers alone, and not even in these when the options agree on
them. -/
def SameEntry (o o' : ParseOptions) (entry entry' : Entry) : Prop :=
  entry.eraseLines = entry'.eraseLines ∧ (o.storeLineNumbers = o'.storeLineNumbers → entry = entry')

/-- Entries with the same members are the same when they are complete. -/
theorem sameEntry_complete {body body' : Option Entries}
    (hbody : Option.Rel (SameEntries o o') body body') (doc template : Option Pending)
    (token : Token) (s : Signature) :
    SameEntry o o' ⟨complete o doc template token s, body⟩
      ⟨complete o' doc template token s, body'⟩ := by
  have herased := eraseLines_complete o o' doc template token s
  cases hbody with
  | none =>
    constructor
    · rw [Entry.eraseLines, Entry.eraseLines, herased]
    · intro hlines
      rw [complete_congr hlines]
  | some htable =>
    have hmembers := htable.eraseLines_eq
    unfold Entries.eraseLines at hmembers
    constructor
    · rw [Entry.eraseLines, Entry.eraseLines, herased, hmembers]
    · intro hlines
      rw [complete_congr hlines, htable.eq hlines]

/-- The same entries, added to the same tables, give the same tables. -/
theorem SameEntries.addAll {table table' : Entries} {entry entry' : Entry}
    (h : SameEntries o o' table table') (hentry : SameEntry o o' entry entry') :
    SameEntries o o' (table.addAll entry.hoisted).1 (table'.addAll entry'.hoisted).1 := by
  constructor
  · rw [← Entries.addAll_eraseLines, ← Entries.addAll_eraseLines, ← Entry.hoisted_eraseLines,
      ← Entry.hoisted_eraseLines, h.eraseLines_eq, hentry.1]
  · intro hlines
    rw [h.eq hlines, hentry.2 hlines]

/-- The same entries are added by both builders. -/
theorem Builder.Alike.addEntry {entry entry' : Entry} (h : b.Alike o o' b')
    (hentry : SameEntry o o' entry entry') :
    (b.addEntry entry).1.Alike o o' (b'.addEntry entry').1 :=
  { h with entries := h.entries.addAll hentry }

/-- A declaration is marked in both builders. -/
theorem Builder.Alike.markDeclared (h : b.Alike o o' b') (line : Int) :
    (b.markDeclared line).Alike o o' (b'.markDeclared line) := by
  unfold Builder.markDeclared
  rw [h.declared]
  split
  · exact h
  · exact { h with declared := rfl, entriesBegin := congrArg (· <|> some line) h.entriesBegin }

/-- A doc is taken by both builders. -/
theorem Builder.Alike.takeDoc (h : b.Alike o o' b') (doc : Option Pending) :
    (b.takeDoc doc).1.Alike o o' (b'.takeDoc doc).1 := by
  unfold Builder.takeDoc
  split
  · exact { h with pendingDoc := rfl }
  · exact h.floatPending

/-- A declaration is entered by both builders. -/
theorem Builder.Alike.enter (h : b.Alike o o' b') {body body' : Option Entries}
    (hbody : Option.Rel (SameEntries o o') body body') (doc : Option Pending) (token : Token)
    (s : Signature) : (b.enter doc token s body).1.Alike o o' (b'.enter doc token s body').1 := by
  have hfirst : b.firstLine token = b'.firstLine token := by
    rw [Builder.firstLine, Builder.firstLine, h.template]
  have hentry := sameEntry_complete hbody doc b.template token s
  have hdropped : Builder.Alike o o' { b with template := none } { b' with template := none } :=
    { h with template := rfl }
  unfold Builder.enter
  rw [← h.template, ← hfirst, h.options, h.options']
  have hmarked := hdropped.markDeclared ((doc.map Pending.beginLine).getD (b.firstLine token))
  rw [h.options, h.options'] at hmarked
  exact hmarked.addEntry hentry

section Members

variable {members members' : String → RecordHead → Logged ParseError Entries}

/-- Two readers of bodies, of which the second follows the first. -/
def MembersFollow (strict : Prop) (o o' : ParseOptions)
    (members members' : String → RecordHead → Logged ParseError Entries) : Prop :=
  ∀ name head,
    Logged.Follows strict (SameEntries o o') (members name head) (members' name head)

/-- The body of a token is read in the same way when the bodies of records are. -/
theorem bodyOf_follows (h : MembersFollow strict o o' members members') (name : String)
    (token : Token) :
    Logged.Follows strict (Option.Rel (SameEntries o o')) (bodyOf members name token)
      (bodyOf members' name token) := by
  unfold bodyOf
  split
  · rw [map_eq_pure_bind, map_eq_pure_bind]
    apply (h name _).bind
    intro table table' htable
    exact .pure (.some htable)
  · exact .pure .none

/-- A declaration is read by both builders. -/
theorem Builder.Alike.declare (h : b.Alike o o' b')
    (hmembers : MembersFollow strict o o' members members') (token : Token) (s : Signature) :
    Logged.Follows strict (Builder.Alike o o') (b.declare members token s)
      (b'.declare members' token s) := by
  have hdoc : b.docFor (b.firstLine token) = b'.docFor (b'.firstLine token) := by
    rw [Builder.docFor, Builder.docFor, Builder.firstLine, Builder.firstLine, h.pendingDoc,
      h.template]
  have htaken := h.takeDoc (b'.docFor (b'.firstLine token))
  rw [Builder.declare_eq hdoc, Builder.declare_eq rfl, htaken.name]
  apply (Logged.Follows.write _ _).andThen
  apply (bodyOf_follows hmembers _ token).bind
  intro body body' hbody
  apply (Logged.Follows.write _ _).andThen
  exact .pure (htaken.enter hbody _ token s)

/-! ## Runs -/

/-- Tokens are read by both builders. -/
theorem Builder.Alike.run (h : b.Alike o o' b') (htolerates : Tolerates strict o o')
    (hmembers : MembersFollow strict o o' members members') (tokens : List Token) :
    Logged.Follows strict (Builder.Alike o o') (b.run members tokens) (b'.run members' tokens) := by
  -- What waits is the same for both, so they take the same step for every token.
  induction tokens generalizing b b' with
  | nil => exact .pure h
  | cons token tokens ih =>
    obtain hend | ⟨text, hdoc⟩ | ⟨text, htemplate⟩ | ⟨s, hs⟩ | hpassed :=
      statement_cases token.statement
    · rw [Builder.run_of_isEnd hend, Builder.run_of_isEnd hend]
      exact .pure { h with entriesEnd := rfl }
    · rw [Builder.run_of_doc hdoc, Builder.run_of_doc hdoc]
      apply (Logged.Follows.write _ _).andThen
      apply ih
      exact { h.floatPending with pendingDoc := rfl }
    · rw [Builder.run_of_template htemplate, Builder.run_of_template htemplate]
      apply (h.checkTemplate _).andThen
      apply ih
      exact { h with template := rfl }
    · rw [Builder.run_of_signature hs, Builder.run_of_signature hs]
      apply (h.declare hmembers token s).bind
      intro next next' hnext
      exact ih hnext
    · rw [Builder.run_of_isPassed hpassed, Builder.run_of_isPassed hpassed]
      apply (h.pass htolerates token).bind
      intro next next' hnext
      exact ih hnext

/-- Tokens are read to their end by both builders. -/
theorem Builder.Alike.runAll (h : b.Alike o o' b') (htolerates : Tolerates strict o o')
    (hmembers : MembersFollow strict o o' members members') (tokens : List Token) :
    Logged.Follows strict (Builder.Alike o o') (b.runAll members tokens)
      (b'.runAll members' tokens) := by
  unfold Builder.runAll
  apply (h.run htolerates hmembers tokens).bind
  intro next next' hnext
  apply (hnext.checkTemplate _).andThen
  exact .pure hnext

end Members

/-- Builders that have read nothing yet. -/
theorem Builder.Alike.start (name : String) (declared : Bool) :
    Builder.Alike o o' { name, options := o, declared } { name, options := o', declared } where
  options := rfl
  options' := rfl
  name := rfl
  declared := rfl
  entriesBegin := rfl
  entriesEnd := rfl
  includes := rfl
  localIncludes := rfl
  pendingDoc := rfl
  template := rfl
  entries := ⟨rfl, fun _ => rfl⟩
  doc _ := ⟨rfl, rfl, rfl⟩

/-- The options reach the bodies of records, at every depth, no further than their lines. -/
theorem membersOf_follows (htolerates : Tolerates strict o o') (fuel : Nat) :
    MembersFollow strict o o' (membersOf o fuel) (membersOf o' fuel) := by
  induction fuel with
  | zero =>
    intro name head
    exact .fail _
  | succ fuel ih =>
    intro name head
    rw [membersOf, membersOf]
    apply (Logged.Follows.refl _).bind
    rintro tokens _ rfl
    apply (Builder.Alike.runAll (.start _ true) htolerates ih tokens).bind
    intro b b' h
    exact .pure h.entries

/-- The headers of the same tokens come from builders that are alike. -/
theorem ofTokens_follows (htolerates : Tolerates strict o o') (name : String)
    (tokens : List Token) :
    Logged.Follows strict (fun header header' => ∃ b b', Builder.Alike o o' b b' ∧
      header = b.header ∧ header' = b'.header) (ofTokens name o tokens)
      (ofTokens name o' tokens) := by
  unfold ofTokens
  apply (Builder.Alike.runAll (.start _ false) htolerates
    (membersOf_follows htolerates _) tokens).bind
  intro b b' h
  exact .pure ⟨b, b', h, rfl, rfl⟩

end Builder

/-! ## Headers -/

/-- Two outcomes of reading the same lines: the same error, or headers with the same includes and
the same entries apart from their line numbers, and with the same doc when the doc comments that
float are `kept` in the same way. -/
def SameReading (kept : Prop) : Except ParseError Header → Except ParseError Header → Prop
  | .ok header, .ok header' =>
    header.includes = header'.includes ∧ header.localIncludes = header'.localIncludes ∧
      header.entries.eraseLines = header'.entries.eraseLines ∧
      (kept → header.doc = header'.doc)
  | .error e, .error e' => e = e'
  | .ok _, .error _ | .error _, .ok _ => False

/-- Computations whose headers read the same read the same. -/
theorem sameReading_of_follows {kept : Prop} {x y : Logged ParseError Header}
    (h : Logged.Follows True (fun header header' => SameReading kept (.ok header) (.ok header'))
      x y) :
    SameReading kept x.outcome y.outcome := by
  cases hx : x.outcome with
  | ok header =>
    obtain ⟨header', hy, hsame⟩ := h.ok header hx
    rw [hy]
    exact hsame
  | error e =>
    rw [h.error trivial e hx]
    rfl

section Headers

variable {o o' : ParseOptions} {b b' : Builder} {strict : Prop}

/-- The headers of builders that are alike read the same. -/
theorem Builder.Alike.header (h : b.Alike o o' b') :
    SameReading (o.floatingDocs = o'.floatingDocs) (.ok b.header) (.ok b'.header) := by
  refine ⟨?_, ?_, h.entries.eraseLines_eq, fun hdocs => (h.doc hdocs).1⟩
  · show (if b.includes = [] then none else some b.includes) = _
    rw [h.includes]
    rfl
  · show (if b.localIncludes = [] then none else some b.localIncludes) = _
    rw [h.localIncludes]
    rfl

/-- When the options differ in tolerance alone, nothing of the headers differs. -/
theorem Builder.Alike.header_eq (h : b.Alike o o' b')
    (hlines : o.storeLineNumbers = o'.storeLineNumbers) (hdocs : o.floatingDocs = o'.floatingDocs) :
    b.header = b'.header := by
  obtain ⟨hdoc, hbegin, hend⟩ := h.doc hdocs
  unfold Builder.header
  rw [h.name, hdoc, h.entries.eq hlines, h.includes, h.localIncludes, hbegin, hend, h.entriesBegin,
    h.entriesEnd, h.options, h.options', hlines]

/-- The headers of the same lines come from builders that are alike. -/
theorem ofLines_follows (htolerates : Tolerates strict o o') (name : String) (lines : List Line) :
    Logged.Follows strict (fun header header' => ∃ b b', Builder.Alike o o' b b' ∧
      header = b.header ∧ header' = b'.header) (ofLines name o lines) (ofLines name o' lines) := by
  unfold ofLines
  apply (Logged.Follows.refl _).bind
  rintro tokens _ rfl
  exact ofTokens_follows htolerates name tokens

end Headers

end Header

/-- The options of reading do not interfere.  For one tolerance, whether line numbers are kept and
what becomes of floating doc comments decides neither whether a source is accepted nor why it is
not; it changes nothing but line numbers and the doc of the file.  And a source that is accepted
without tolerance gives the same header with it. -/
theorem Header.ofLines_options (name : String) (lines : List Line) (tolerate keep keep' : Bool)
    (docs docs' : FloatingDocs) :
    SameReading (docs = docs') (ofLines name ⟨keep, tolerate, docs⟩ lines).outcome
        (ofLines name ⟨keep', tolerate, docs'⟩ lines).outcome ∧
      ∀ header, (ofLines name ⟨keep, false, docs⟩ lines).outcome = .ok header →
        (ofLines name ⟨keep, true, docs⟩ lines).outcome = .ok header := by
  constructor
  · apply sameReading_of_follows
    have htolerates : Tolerates True ⟨keep, tolerate, docs⟩ ⟨keep', tolerate, docs'⟩ :=
      ⟨id, fun _ => rfl⟩
    have hfollows := ofLines_follows htolerates name lines
    constructor
    · intro header hok
      obtain ⟨_, hok', b, b', h, rfl, rfl⟩ := hfollows.ok header hok
      exact ⟨_, hok', h.header⟩
    · exact hfollows.error
  · intro header hok
    have htolerates : Tolerates False ⟨keep, false, docs⟩ ⟨keep, true, docs⟩ :=
      ⟨fun _ => rfl, False.elim⟩
    have hfollows := ofLines_follows htolerates name lines
    obtain ⟨_, hok', b, b', h, rfl, rfl⟩ := hfollows.ok header hok
    rw [hok', h.header_eq rfl rfl]

end HeaderApi
