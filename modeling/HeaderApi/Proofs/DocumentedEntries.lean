import HeaderApi.Proofs.DocComments
import HeaderApi.Proofs.GroupingRuns

/-!
# Declarations behind their printed docs

A printed doc comment is at most one token, and the declaration behind it takes its text.  Where
nothing stands under the key of a declaration, its entry is put behind the entries before it.
-/

namespace HeaderApi

open Text

/-! ## The tokens of printed docs -/

namespace Token

/-- The token of a printed doc comment; an empty doc has none. -/
def docTokens (indent : Line) (line : Int) (doc : String) : List Token :=
  if doc = "" then []
  else [⟨.doc doc, line, line + (docLines indent doc).length, indent.length⟩]

theorem skipBlankLines_of_visible {raw : Line} (h : allBlank raw = false) (rest : List Line) :
    skipBlankLines (raw :: rest) = raw :: rest := List.dropWhile_cons_of_neg (by simp [h])

/-- No blank line stands in front of a printed doc. -/
theorem skipBlankLines_documented (indent : Line) (doc : String) {rest : List Line}
    (h : skipBlankLines rest = rest) :
    skipBlankLines (docLines indent doc ++ rest) = docLines indent doc ++ rest := by
  by_cases hne : doc = ""
  · rw [docLines, if_pos hne]
    exact h
  · have hopen : allBlank (indent ++ "/**".toList) = false := by
      simp [allBlank, show isBlank '/' = false by decide]
    rw [docLines, if_neg hne]
    exact skipBlankLines_of_visible hopen _

/-- The doc comment that the lines begin with comes before the tokens of the other lines. -/
theorem streamFrom_documented {mode : Mode} {indent : Line} {line : Int} {rest : List Line}
    (hindent : ∀ c ∈ indent, isBlank c = true) {doc : String} (hdoc : IsPlainDoc doc.toList)
    (hrest : skipBlankLines rest = rest) {log : Log} {tokens : List Token}
    (hlater : ∀ fuel, rest.length < fuel →
      streamFrom mode fuel ⟨line + (docLines indent doc).length, rest, []⟩ = ⟨log, .ok tokens⟩)
    {fuel : Nat} (hfuel : (docLines indent doc ++ rest).length < fuel) :
    streamFrom mode fuel ⟨line, docLines indent doc ++ rest, []⟩ =
      ⟨log, .ok (docTokens indent line doc ++ tokens)⟩ := by
  by_cases hne : doc = ""
  · have hnone : docLines indent doc = [] := if_pos hne
    have htokens := hlater fuel (by simpa [hnone] using hfuel)
    rw [hnone, List.length_nil, Int.natCast_zero, Int.add_zero] at htokens
    rw [docTokens, if_pos hne, hnone]
    exact htokens
  · obtain ⟨fuel, rfl⟩ : ∃ fuel', fuel = fuel' + 1 := Nat.exists_eq_succ_of_ne_zero (by omega)
    -- the doc comment takes one step and at least two lines
    have hlength : rest.length < fuel := by
      have hlines : (docLines indent doc).length = (lines doc.toList).length + 2 := by
        simp [docLines, hne]
      rw [List.length_append] at hfuel
      omega
    have htokens :=
      streamFrom_docLines hindent hne hdoc.unmarked_lines hrest rfl (hlater fuel hlength)
    rw [hdoc.docForm_eq, String.ofList_toList] at htokens
    rw [docTokens, if_neg hne]
    exact htokens

end Token

/-! ## Entries behind those before them -/

theorem Entry.eta (e : Entry) : e = ⟨e.toSignature, e.members⟩ := by
  cases e
  rfl

/-- An entry with a name stands for itself. -/
theorem Entry.hoisted_of_name {entry : Entry} (h : entry.name ≠ "") : entry.hoisted = [entry] := by
  obtain ⟨s, members⟩ := entry
  cases members with
  | none => rfl
  | some members => exact if_neg h

namespace Header

variable {members : String → RecordHead → Logged ParseError Entries} {b : Builder} {token : Token}

/-- The first entry under its key comes behind the entries before it. -/
theorem Builder.addEntry_of_new {entry : Entry} (hname : entry.name ≠ "")
    (hnew : entry.key ∉ Keyed.keys b.entries) :
    b.addEntry entry = ({ b with entries := b.entries ++ [(entry.key, .single entry)] }, []) := by
  have hnone : Keyed.find? b.entries entry.key = none := by
    rw [← Option.not_isSome_iff_eq_none, Keyed.find?_isSome_iff]
    exact hnew
  have hadd : b.entries.addAll [entry] = (b.entries ++ [(entry.key, .single entry)], []) := by
    simp only [Entries.addAll, Entries.add?, hnone]
    rw [Keyed.insert_of_not_mem hnew]
  rw [Builder.addEntry, Entry.hoisted_of_name hname, hadd]
  rfl

/-- A builder in which nothing waits for a declaration, and which keeps no line numbers. -/
structure Builder.IsFree (b : Builder) : Prop where
  pendingDoc : b.pendingDoc = none
  template : b.template = none
  storeLineNumbers : b.options.storeLineNumbers = false

theorem Builder.IsFree.floatPending (h : b.IsFree) : b.floatPending = (b, []) := by
  rw [Builder.floatPending, h.pendingDoc]

/-- Marking a declaration leaves the entries as they are. -/
theorem Builder.entries_markDeclared (b : Builder) (line : Int) :
    (b.markDeclared line).entries = b.entries := by
  obtain ⟨declared, entriesBegin, hmarked⟩ := b.markDeclared_eq line
  rw [hmarked]

/-- The builder after a declaration that begins at a line, whose entry is the first under its
key. -/
def Builder.append (b : Builder) (line : Int) (entry : Entry) : Builder :=
  { b.markDeclared line with entries := b.entries ++ [(entry.key, .single entry)] }

theorem Builder.entries_append (b : Builder) (line : Int) (entry : Entry) :
    (b.append line entry).entries = b.entries ++ [(entry.key, .single entry)] := rfl

theorem Builder.IsFree.append (h : b.IsFree) (line : Int) (entry : Entry) :
    (b.append line entry).IsFree := by
  obtain ⟨declared, entriesBegin, hmarked⟩ := b.markDeclared_eq line
  rw [Builder.append, hmarked]
  exact ⟨h.pendingDoc, h.template, h.storeLineNumbers⟩

variable {indent : Line} {line : Int} {doc : String} {s : Signature} {body : Option Entries}
  {log : Log}

/-- A declaration takes the doc comment that ends where it begins, and its entry is put behind the
entries before it. -/
theorem Builder.declare_of_pending (pending : Option Pending) (hfree : b.IsFree)
    (hpending : ∀ d ∈ pending, d.endLine = token.beginLine) (hsdoc : s.doc = "")
    (hstemplate : s.template = none) (hbody : bodyOf members b.name token = ⟨log, .ok body⟩)
    {entry : Entry} (hentry : entry = ⟨{ s with doc := (pending.map Pending.text).getD "" }, body⟩)
    (hname : entry.name ≠ "") (hnew : entry.key ∉ Keyed.keys b.entries) :
    Builder.declare members { b with pendingDoc := pending } token s =
      ⟨log, .ok (b.append ((pending.map Pending.beginLine).getD token.beginLine) entry)⟩ := by
  obtain ⟨hdoc, htemplate, hlines⟩ := hfree
  have hfirst : Builder.firstLine { b with pendingDoc := pending } token = token.beginLine := by
    rw [Builder.firstLine, htemplate]
    rfl
  have hfor : Builder.docFor { b with pendingDoc := pending }
      (Builder.firstLine { b with pendingDoc := pending } token) = pending := by
    rw [hfirst, Builder.docFor]
    cases pending with
    | none => rfl
    | some d => simp [Option.filter, hpending d rfl]
  have hb : { b with pendingDoc := none } = b := by
    rw [← hdoc]
  have htake : Builder.takeDoc { b with pendingDoc := pending } pending = (b, []) := by
    cases pending with
    | none => simp only [Builder.takeDoc, Option.isSome_none, Builder.floatPending, hb]; rfl
    | some d => simp only [Builder.takeDoc, Option.isSome_some, if_true, hb]
  have hcomplete : complete b.options pending none token s =
      { s with doc := (pending.map Pending.text).getD "" } := by
    simp only [complete, withLines, hlines, hsdoc, Bool.false_eq_true, if_false, Option.map_none,
      ← hstemplate]
  have htemplate' : { b with template := none } = b := by
    rw [← htemplate]
  have henter : b.enter pending token s body =
      (b.append ((pending.map Pending.beginLine).getD token.beginLine) entry, []) := by
    have hfirst' : b.firstLine token = token.beginLine := hfirst
    rw [Builder.enter, hfirst', htemplate, htemplate', hcomplete, ← hentry,
      Builder.addEntry_of_new hname ((b.entries_markDeclared _).symm ▸ hnew),
      b.entries_markDeclared]
    rfl
  simp only [Builder.declare_eq hfor, htake, hbody, henter, writeAll, Logged.ok_bind,
    Logged.pure_def, List.nil_append, List.append_nil]

/-- A declaration behind its printed doc puts its entry behind the entries before it, and nothing
waits after it. -/
theorem Builder.run_documented (hfree : b.IsFree)
    (hbegin : token.beginLine = line + (docLines indent doc).length)
    (hs : signature? token.statement = some s) (hsdoc : s.doc = "") (hstemplate : s.template = none)
    (hbody : bodyOf members b.name token = ⟨log, .ok body⟩) {entry : Entry}
    (hentry : entry = ⟨{ s with doc }, body⟩) (hname : entry.name ≠ "")
    (hnew : entry.key ∉ Keyed.keys b.entries) (tokens : List Token) :
    b.run members (Token.docTokens indent line doc ++ token :: tokens) =
      (do
        writeAll log
        Builder.run members tokens (b.append line entry)) := by
  by_cases hne : doc = ""
  · have hline : token.beginLine = line := by simpa [docLines, hne] using hbegin
    have hdeclare := Builder.declare_of_pending none hfree (by simp) hsdoc hstemplate
      hbody (by rw [hentry, hne]; rfl) hname hnew
    have hb : { b with pendingDoc := none } = b := by
      rw [← hfree.pendingDoc]
    rw [hb, Option.map_none, Option.getD_none, hline] at hdeclare
    rw [Token.docTokens, if_pos hne, List.nil_append, Builder.run_of_signature hs, hdeclare]
    rfl
  · -- the doc comment waits for one token and is taken by the declaration
    have hdeclare := Builder.declare_of_pending (some ⟨doc, line, token.beginLine⟩) hfree
      (by simp) hsdoc hstemplate hbody hentry hname hnew
    rw [Token.docTokens, if_neg hne, List.singleton_append, Builder.run_of_doc rfl,
      hfree.floatPending]
    simp only [← hbegin, Builder.run_of_signature hs, hdeclare]
    rfl

/-- A declaration that stands alone, behind its printed doc, makes up the header. -/
theorem ofTokens_documented {name : String}
    (hbegin : token.beginLine = line + (docLines indent doc).length)
    (hs : signature? token.statement = some s) (hsdoc : s.doc = "") (hstemplate : s.template = none)
    (hbody : ∀ fuel, bodyOf (membersOf {} (fuel + 1)) name token = ⟨log, .ok body⟩) {entry : Entry}
    (hentry : entry = ⟨{ s with doc }, body⟩) (hname : entry.name ≠ "") (last : Int) :
    ofTokens name {} (Token.docTokens indent line doc ++ [token, ⟨.eof, last, last, 0⟩]) =
      ⟨log, .ok { name, entries := [(entry.key, .single entry)] }⟩ := by
  have hfree : Builder.IsFree { name, options := {} } := ⟨rfl, rfl, rfl⟩
  have hrun (fuel : Nat) : Builder.run (membersOf {} (fuel + 1))
      (Token.docTokens indent line doc ++ [token, ⟨.eof, last, last, 0⟩]) { name, options := {} } =
      ⟨log, .ok { Builder.append { name, options := {} } line entry with
        entriesEnd := some last }⟩ := by
    rw [Builder.run_documented hfree hbegin hs hsdoc hstemplate (hbody fuel) hentry hname
      List.not_mem_nil, Builder.run_of_isEnd rfl]
    exact congrArg (Logged.mk · _) (List.append_nil log)
  simp only [ofTokens, Builder.runAll, hrun, Logged.ok_bind]
  refine congrArg (Logged.mk · _) ?_
  simp [Builder.checkTemplate, Builder.append, Builder.markDeclared]

end Header

end HeaderApi
